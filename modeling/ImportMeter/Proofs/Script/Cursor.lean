/-
This file runs the walks over a syntax tree as loops over a cursor, which only goes to a first child, to the
next sibling or to the parent. The loops come to an end and list each place of the tree once, a parent before
or behind all that lies below it and siblings from left to right.
-/
import Mathlib.Algebra.Ring.Nat
import Mathlib.Data.List.Nodup
import Mathlib.Logic.Function.Iterate
import Mathlib.Logic.Relation
import ImportMeter.Proofs.Script.Child
import ImportMeter.Proofs.Script.Walk

namespace ImportMeter.Script

/-- Where a parent is listed: in front of all that lies below it or behind it. -/
inductive WalkOrder where
  | parentsFirst
  | childrenFirst

namespace WalkOrder

/-- A place together with places that lie below it. -/
def join (order : WalkOrder) (place : Place) (below : List Place) : List Place :=
  match order with
  | .parentsFirst => place :: below
  | .childrenFirst => below ++ [place]

/-- What is listed when a walk comes to a place for the first time. -/
def enter (order : WalkOrder) (place : Place) (listed : List Place) : List Place :=
  match order with
  | .parentsFirst => listed ++ [place]
  | .childrenFirst => listed

/-- What is listed when all below a place has been walked. -/
def leave (order : WalkOrder) (place : Place) (listed : List Place) : List Place :=
  match order with
  | .parentsFirst => listed
  | .childrenFirst => listed ++ [place]

variable {order : WalkOrder} {place other : Place} {below : List Place}

theorem leave_enter (order : WalkOrder) (place : Place) (listed below : List Place) :
    order.leave place (order.enter place listed ++ below) = listed ++ order.join place below := by
  cases order with
  | parentsFirst => exact List.append_assoc listed [place] below
  | childrenFirst => exact List.append_assoc listed below [place]

theorem mem_join : other ∈ order.join place below ↔ other = place ∨ other ∈ below := by
  cases order with
  | parentsFirst => exact List.mem_cons
  | childrenFirst => rw [join, List.mem_append, List.mem_singleton, or_comm]

theorem nodup_join : (order.join place below).Nodup ↔ place ∉ below ∧ below.Nodup := by
  cases order with
  | parentsFirst => exact List.nodup_cons
  | childrenFirst => exact List.nodup_append_comm.trans List.nodup_cons

theorem length_join : (order.join place below).length = below.length + 1 := by
  cases order with
  | parentsFirst => rfl
  | childrenFirst => exact List.length_append

theorem sublist_join : below.Sublist (order.join place below) := by
  cases order with
  | parentsFirst => exact List.sublist_cons_self place below
  | childrenFirst => exact List.sublist_append_left below [place]

theorem join_sublist_join {some all : List Place} (fewer : some.Sublist all) :
    (order.join place some).Sublist (order.join place all) := by
  cases order with
  | parentsFirst => exact fewer.cons_cons place
  | childrenFirst => exact fewer.append_right [place]

end WalkOrder

theorem Tree.sizeOfAll_eq (trees : List Tree) :
    Tree.size.sizeOfAll trees = (trees.map Tree.size).sum := by
  induction trees with
  | nil => rfl
  | cons tree trees inductionHypothesis =>
      rw [Tree.size.sizeOfAll, inductionHypothesis, List.map_cons, List.sum_cons]

namespace Place

/-- The places in the tree at a place, in an order. -/
def listing (order : WalkOrder) (place : Place) : List Place :=
  match order with
  | .parentsFirst => parentsFirst place.focus place.above place.start
  | .childrenFirst => childrenFirst place.focus place.above place.start

/-- True for a place that is a child of another one. -/
def IsChild (parent child : Place) : Prop := child ∈ parent.children

variable {order : WalkOrder} {place child upper lower : Place}

/-! ### The children of a place -/

/-- What passes from the children of a place to the place holds at all places. -/
theorem childrenInduction {motive : Place → Prop}
    (step : ∀ place, (∀ child ∈ place.children, motive child) → motive place) (place : Place) :
    motive place := by
  rcases place with ⟨tree, above, start⟩
  induction tree using Tree.childInduction generalizing above start with
  | leaf => exact step _ (List.forall_mem_nil motive)
  | node role kind children childHypothesis =>
      refine step _ fun child member => ?_
      rw [children_eq] at member
      have isChild := List.mem_map_of_mem (f := Place.focus) member
      rw [map_focus_childPlaces] at isChild
      exact childHypothesis child.focus isChild child.above child.start

/-- A child lies one node deeper, with all on its left that is on the left of the first child. -/
theorem above_of_mem_childPlaces {role : Option Role} {kind : Kind} {above : List Frame}
    {left trees : List Tree} {start : Nat}
    (member : child ∈ childPlaces role kind above left start trees) :
    ∃ frame, child.above = frame :: above ∧ left.length ≤ frame.left.length := by
  induction trees generalizing left start with
  | nil => cases member
  | cons tree trees inductionHypothesis =>
      rcases List.mem_cons.mp member with rfl | inRest
      · exact ⟨_, rfl, Nat.le_refl _⟩
      · obtain ⟨frame, isAbove, longer⟩ := inductionHypothesis inRest
        exact ⟨frame, isAbove, Nat.le_of_succ_le longer⟩

theorem above_of_isChild (isChild : IsChild upper lower) :
    ∃ frame, lower.above = frame :: upper.above := by
  rcases upper with ⟨tree, above, start⟩
  cases tree with
  | leaf => cases isChild
  | node role kind children =>
      rw [IsChild, children_eq] at isChild
      obtain ⟨frame, isAbove, -⟩ := above_of_mem_childPlaces isChild
      exact ⟨frame, isAbove⟩

/-- No two children have the same around them. -/
theorem pairwise_above_children (place : Place) :
    place.children.Pairwise fun first second => first.above ≠ second.above := by
  rcases place with ⟨tree, above, start⟩
  cases tree with
  | leaf => exact .nil
  | node role kind children =>
      rw [children_eq]
      generalize [] = left
      induction children generalizing left start with
      | nil => exact .nil
      | cons tree children inductionHypothesis =>
          refine .cons (fun other member same => ?_) (inductionHypothesis _ _)
          obtain ⟨frame, isAbove, longer⟩ := above_of_mem_childPlaces member
          rw [isAbove] at same
          obtain ⟨rfl, -⟩ := List.cons.inj same
          exact Nat.not_succ_le_self _ longer

theorem size_focus (place : Place) :
    place.focus.size = (place.children.map fun child => child.focus.size).sum + 1 := by
  rcases place with ⟨tree, above, start⟩
  cases tree with
  | leaf => rfl
  | node role kind children =>
      have sizes := congrArg (List.map Tree.size) (map_focus_childPlaces role kind above [] start children)
      rw [List.map_map] at sizes
      rw [Tree.size, Tree.sizeOfAll_eq, children_eq, ← sizes]
      rfl

/-! ### The places in a tree -/

theorem parentsFirst_amongChildren_eq (role : Option Role) (kind : Kind) (above : List Frame)
    (left : List Tree) (start : Nat) (trees : List Tree) :
    parentsFirst.amongChildren role kind above left start trees =
      (childPlaces role kind above left start trees).flatMap (listing .parentsFirst) := by
  induction trees generalizing left start with
  | nil => rfl
  | cons tree trees inductionHypothesis =>
      rw [parentsFirst.amongChildren, inductionHypothesis, childPlaces, List.flatMap_cons, listing]

theorem childrenFirst_amongChildren_eq (role : Option Role) (kind : Kind) (above : List Frame)
    (left : List Tree) (start : Nat) (trees : List Tree) :
    childrenFirst.amongChildren role kind above left start trees =
      (childPlaces role kind above left start trees).flatMap (listing .childrenFirst) := by
  induction trees generalizing left start with
  | nil => rfl
  | cons tree trees inductionHypothesis =>
      rw [childrenFirst.amongChildren, inductionHypothesis, childPlaces, List.flatMap_cons, listing]

/-- The places in a tree are its top and those in the children. -/
theorem listing_eq (order : WalkOrder) (place : Place) :
    listing order place = order.join place (place.children.flatMap (listing order)) := by
  rcases place with ⟨tree, above, start⟩
  cases tree with
  | leaf => cases order <;> rfl
  | node role kind children =>
      rw [children_eq]
      cases order with
      | parentsFirst => rw [← parentsFirst_amongChildren_eq, listing, parentsFirst, WalkOrder.join]
      | childrenFirst => rw [← childrenFirst_amongChildren_eq, listing, childrenFirst, WalkOrder.join]

theorem mem_listing_iff :
    lower ∈ listing order upper ↔ Relation.ReflTransGen IsChild upper lower := by
  induction upper using childrenInduction with
  | step upper childHypothesis =>
      rw [listing_eq, WalkOrder.mem_join, List.mem_flatMap, Relation.ReflTransGen.cases_head_iff]
      refine or_congr eq_comm (exists_congr fun child => and_congr_right fun isChild => ?_)
      exact childHypothesis child isChild

theorem above_suffix_of_mem_listing (member : lower ∈ listing order upper) :
    upper.above <:+ lower.above := by
  rw [mem_listing_iff] at member
  induction member with
  | refl => exact List.suffix_rfl
  | tail _ isChild inductionHypothesis =>
      obtain ⟨frame, isAbove⟩ := above_of_isChild isChild
      rw [isAbove]
      exact inductionHypothesis.trans (List.suffix_cons frame _)

/-- A place in the trees at two children of a place is in one tree only. -/
theorem disjoint_listing {first second : Place} (firstIsChild : IsChild place first)
    (secondIsChild : IsChild place second) (different : first.above ≠ second.above) :
    List.Disjoint (listing order first) (listing order second) := by
  intro lower inFirst inSecond
  obtain ⟨firstFrame, firstAbove⟩ := above_of_isChild firstIsChild
  obtain ⟨secondFrame, secondAbove⟩ := above_of_isChild secondIsChild
  have sameLength : first.above.length = second.above.length := by
    rw [firstAbove, secondAbove, List.length_cons, List.length_cons]
  have isSuffix := List.suffix_of_suffix_length_le (above_suffix_of_mem_listing inFirst)
    (above_suffix_of_mem_listing inSecond) (Nat.le_of_eq sameLength)
  exact different (isSuffix.eq_of_length sameLength)

theorem nodup_listing (order : WalkOrder) (place : Place) : (listing order place).Nodup := by
  induction place using childrenInduction with
  | step place childHypothesis =>
      rw [listing_eq, WalkOrder.nodup_join, List.nodup_flatMap]
      refine ⟨fun inChildren => ?_, childHypothesis, ?_⟩
      · obtain ⟨child, isChild, member⟩ := List.mem_flatMap.mp inChildren
        obtain ⟨frame, isAbove⟩ := above_of_isChild isChild
        have shorter := (above_suffix_of_mem_listing member).length_le
        rw [isAbove] at shorter
        exact Nat.not_succ_le_self _ shorter
      · exact (pairwise_above_children place).imp_of_mem disjoint_listing

theorem length_listing (order : WalkOrder) (place : Place) :
    (listing order place).length = place.focus.size := by
  induction place using childrenInduction with
  | step place childHypothesis =>
      rw [listing_eq, WalkOrder.length_join, List.length_flatMap, List.map_congr_left childHypothesis,
        size_focus]

theorem listing_sublist_listing (below : Relation.ReflTransGen IsChild upper lower) :
    (listing order lower).Sublist (listing order upper) := by
  induction below with
  | refl => exact List.Sublist.refl _
  | @tail middle lower _ isChild inductionHypothesis =>
      refine List.Sublist.trans ?_ inductionHypothesis
      rw [listing_eq order middle]
      exact (List.infix_flatMap_of_mem isChild (listing order)).sublist.trans WalkOrder.sublist_join

/-- A parent is listed on the one side of all that lies below it. -/
theorem join_sublist_listing (below : Relation.TransGen IsChild upper lower) :
    (order.join upper [lower]).Sublist (listing order upper) := by
  obtain ⟨child, isChild, below⟩ := Relation.TransGen.head'_iff.mp below
  rw [listing_eq]
  refine WalkOrder.join_sublist_join (List.singleton_sublist.mpr ?_)
  exact List.mem_flatMap.mpr ⟨child, isChild, mem_listing_iff.mpr below⟩

theorem children_sublist_listing (order : WalkOrder) (place : Place) :
    place.children.Sublist (listing order place) := by
  rw [listing_eq]
  refine List.Sublist.trans ?_ WalkOrder.sublist_join
  induction place.children with
  | nil => exact .slnil
  | cons child children inductionHypothesis =>
      have first : child ∈ listing order child := mem_listing_iff.mpr .refl
      exact (List.singleton_sublist.mpr first).append inductionHypothesis

/-- What it is to list the places in a tree: each of them once, a parent on the one side of all that lies
below it and siblings from left to right. -/
structure Lists (order : WalkOrder) (tree : Tree) (places : List Place) : Prop where
  mem_iff : ∀ place, place ∈ places ↔ Relation.ReflTransGen IsChild (top tree) place
  nodup : places.Nodup
  length_eq : places.length = tree.size
  parents : ∀ upper ∈ places, ∀ lower, Relation.TransGen IsChild upper lower →
    (order.join upper [lower]).Sublist places
  siblings : ∀ place ∈ places, place.children.Sublist places

theorem lists_listing (order : WalkOrder) (tree : Tree) :
    Lists order tree (listing order (top tree)) where
  mem_iff _ := mem_listing_iff
  nodup := nodup_listing order (top tree)
  length_eq := length_listing order (top tree)
  parents _ member _ below :=
    (join_sublist_listing below).trans (listing_sublist_listing (mem_listing_iff.mp member))
  siblings place member :=
    (children_sublist_listing order place).trans (listing_sublist_listing (mem_listing_iff.mp member))

end Place

/-- Where the loops of a walk are: at a place that they come to, at one below which all has been walked or
at the end, each with the places that have been listed. -/
inductive Walk where
  | entering (place : Place) (listed : List Place)
  | leaving (place : Place) (listed : List Place)
  | finished (listed : List Place)

namespace Walk

open Place

/-- From a place that has been walked to the next sibling, else back to the parent. -/
def goOn (place : Place) (listed : List Place) : Walk :=
  match place.nextSibling? with
  | some next => .entering next listed
  | none =>
    match place.parent? with
    | some parent => .leaving parent listed
    | none => .finished listed

/-- One turn of the outer or the inner loop. -/
def step (order : WalkOrder) : Walk → Walk
  | .entering place listed =>
    match place.firstChild? with
    | some child => .entering child (order.enter place listed)
    | none => .leaving place (order.enter place listed)
  | .leaving place listed => goOn place (order.leave place listed)
  | .finished listed => .finished listed

variable {order : WalkOrder}

/-- Behind the last child a walk is back at the parent. -/
theorem goOn_of_last (role : Option Role) (kind : Kind) (above : List Frame) (left : List Tree)
    (start : Nat) (tree : Tree) (listed : List Place) :
    goOn ⟨tree, ⟨role, kind, left, []⟩ :: above, start + Tree.widthOfAll left⟩ listed =
      .leaving ⟨.node role kind (left.reverse ++ [tree]), above, start⟩ listed := by
  have back : start + Tree.widthOfAll left - Tree.width.widthOfAll left = start :=
    Nat.add_sub_cancel start _
  simp only [goOn, nextSibling?, parent?, back]

/-- If each of some siblings is walked, then a walk goes over all of them and back to the parent. -/
theorem iterate_step_siblings (role : Option Role) (kind : Kind) (above : List Frame)
    (left : List Tree) (start : Nat) (tree : Tree) (right : List Tree) (listed : List Place)
    (walked : ∀ child ∈ childPlaces role kind above left (start + Tree.widthOfAll left) (tree :: right),
      ∀ listed, (step order)^[2 * child.focus.size] (.entering child listed) =
        goOn child (listed ++ listing order child)) :
    (step order)^[2 * Tree.size.sizeOfAll (tree :: right)]
        (.entering ⟨tree, ⟨role, kind, left, right⟩ :: above, start + Tree.widthOfAll left⟩ listed) =
      .leaving ⟨.node role kind (left.reverse ++ tree :: right), above, start⟩
        (listed ++ (childPlaces role kind above left (start + Tree.widthOfAll left)
          (tree :: right)).flatMap (listing order)) := by
  induction right generalizing tree left listed with
  | nil =>
      have first := walked _ List.mem_cons_self listed
      rw [goOn_of_last] at first
      rw [Tree.size.sizeOfAll, Tree.size.sizeOfAll, childPlaces, childPlaces, List.flatMap_singleton]
      exact first
  | cons next right inductionHypothesis =>
      obtain ⟨first, others⟩ := List.forall_mem_cons.mp walked
      have further : start + Tree.widthOfAll left + tree.width =
          start + Tree.widthOfAll (tree :: left) := by
        rw [Tree.widthOfAll_cons, Nat.add_assoc, Nat.add_comm tree.width]
      rw [further] at others
      rw [Tree.size.sizeOfAll, Nat.mul_add, Nat.add_comm, Function.iterate_add_apply, first]
      have rest := inductionHypothesis (tree :: left) next
        (listed ++ listing order ⟨tree, ⟨role, kind, left, next :: right⟩ :: above,
          start + Tree.widthOfAll left⟩) others
      rw [childPlaces, List.flatMap_cons, further, ← List.append_assoc]
      rw [List.reverse_cons, List.append_assoc, List.singleton_append, ← further] at rest
      rw [← further]
      exact rest

theorem iterate_step_childless (place : Place) (listed : List Place)
    (childless : place.firstChild? = none) :
    (step order)^[2] (.entering place listed) = goOn place
      (order.leave place (order.enter place listed ++ place.children.flatMap (listing order))) := by
  rw [children, childless, List.flatMap_nil, List.append_nil, Function.iterate_succ_apply,
    Function.iterate_one, step, childless]
  rfl

/-- A walk that comes to a place lists the tree there and goes on behind it. -/
theorem iterate_step_entering (place : Place) (listed : List Place) :
    (step order)^[2 * place.focus.size] (.entering place listed) =
      goOn place (listed ++ listing order place) := by
  induction place using childrenInduction generalizing listed with
  | step place childHypothesis =>
      rw [listing_eq, ← WalkOrder.leave_enter]
      rcases place with ⟨tree, above, start⟩
      cases tree with
      | leaf role kind letters => exact iterate_step_childless _ listed rfl
      | node role kind children =>
          cases children with
          | nil => exact iterate_step_childless _ listed rfl
          | cons first right =>
              rw [children_eq] at childHypothesis ⊢
              have among := iterate_step_siblings role kind above [] start first right
                (order.enter ⟨.node role kind (first :: right), above, start⟩ listed) childHypothesis
              rw [Tree.size, Nat.mul_succ, Function.iterate_succ_apply', Function.iterate_succ_apply]
              exact congrArg (step order) among

/-- The loops over a cursor end and list the places in a tree. -/
theorem finishes_with_listing (tree : Tree) :
    ((step .parentsFirst)^[2 * tree.size] (.entering (top tree) []) = .finished (preorder tree) ∧
      preorder tree = parentsFirst tree [] 0 ∧ Lists .parentsFirst tree (preorder tree)) ∧
    ((step .childrenFirst)^[2 * tree.size] (.entering (top tree) []) = .finished (postorder tree) ∧
      postorder tree = childrenFirst tree [] 0 ∧ Lists .childrenFirst tree (postorder tree)) := by
  rw [preorder_eq, postorder_eq]
  exact ⟨⟨iterate_step_entering (top tree) [], rfl, lists_listing .parentsFirst tree⟩,
    iterate_step_entering (top tree) [], rfl, lists_listing .childrenFirst tree⟩

end Walk

end ImportMeter.Script
