/-
This file shows that the walks over a syntax tree, which only go from a place to its neighbours, visit
the places that a recursion over the tree lists, each of them once and in the same order.
-/
import ImportMeter.Proofs.Script.Shape
import ImportMeter.Proofs.Text

namespace ImportMeter.Script

namespace Place

/-- The places in a tree, parents before children. -/
def parentsFirst : Tree → List Frame → Nat → List Place
  | .leaf role kind letters, above, start => [⟨.leaf role kind letters, above, start⟩]
  | .node role kind children, above, start =>
    ⟨.node role kind children, above, start⟩ :: amongChildren role kind above [] start children
where
  amongChildren (role : Option Role) (kind : Kind) (above : List Frame) :
      List Tree → Nat → List Tree → List Place
    | _, _, [] => []
    | left, start, tree :: right =>
      parentsFirst tree (⟨role, kind, left, right⟩ :: above) start ++
        amongChildren role kind above (tree :: left) (start + tree.width) right

/-- The places in a tree, children before parents. -/
def childrenFirst : Tree → List Frame → Nat → List Place
  | .leaf role kind letters, above, start => [⟨.leaf role kind letters, above, start⟩]
  | .node role kind children, above, start =>
    amongChildren role kind above [] start children ++ [⟨.node role kind children, above, start⟩]
where
  amongChildren (role : Option Role) (kind : Kind) (above : List Frame) :
      List Tree → Nat → List Tree → List Place
    | _, _, [] => []
    | left, start, tree :: right =>
      childrenFirst tree (⟨role, kind, left, right⟩ :: above) start ++
        amongChildren role kind above (tree :: left) (start + tree.width) right

/-- With a sibling to the right, the walk goes on there. -/
theorem climb_of_sibling (tree next : Tree) (role : Option Role) (kind : Kind)
    (left right : List Tree) (above : List Frame) (start : Nat) :
    climb ⟨tree, ⟨role, kind, left, next :: right⟩ :: above, start⟩ =
      ([], some ⟨next, ⟨role, kind, tree :: left, right⟩ :: above, start + tree.width⟩) :=
  rfl

/-- Without one, the walk leaves the parent and goes on from there. -/
theorem climb_of_last (tree : Tree) (role : Option Role) (kind : Kind) (left : List Tree)
    (above : List Frame) (start : Nat) :
    climb ⟨tree, ⟨role, kind, left, []⟩ :: above, start + Tree.widthOfAll left⟩ =
      (⟨.node role kind (left.reverse ++ [tree]), above, start⟩ ::
          (climb ⟨.node role kind (left.reverse ++ [tree]), above, start⟩).1,
        (climb ⟨.node role kind (left.reverse ++ [tree]), above, start⟩).2) := by
  have parent : start + Tree.widthOfAll left - Tree.width.widthOfAll left = start :=
    Nat.add_sub_cancel start _
  simp only [climb, climbFrom, nextSibling?, parent?, List.length_cons, parent]

/-- The places that are still to be walked once all in a place has been walked. -/
def preorderAfter (fuel : Nat) (place : Place) : List Place :=
  match place.climb.2 with
  | some next => preorderFrom fuel next
  | none => []

theorem preorderFrom_childless (fuel : Nat) (place : Place) (childless : place.firstChild? = none) :
    preorderFrom (fuel + 1) place = place :: preorderAfter fuel place := by
  simp only [preorderFrom, childless]
  rfl

/-- The walk lists a tree, parents before children, and then goes on behind it. -/
theorem preorderFrom_eq (tree : Tree) (above : List Frame) (start fuel : Nat) :
    preorderFrom (tree.size + fuel) ⟨tree, above, start⟩ =
      parentsFirst tree above start ++ preorderAfter fuel ⟨tree, above, start⟩ := by
  induction tree using Tree.childInduction generalizing above start fuel with
  | leaf role kind letters =>
      rw [Tree.size, Nat.add_comm]
      exact preorderFrom_childless fuel _ rfl
  | node role kind children childHypothesis =>
      -- The children from some point on, those before it having been walked.
      have among : ∀ (left : List Tree) (first : Tree) (right : List Tree) (fuel : Nat),
          (∀ child ∈ first :: right, child ∈ children) →
          preorderFrom (Tree.size.sizeOfAll (first :: right) + fuel)
              ⟨first, ⟨role, kind, left, right⟩ :: above, start + Tree.widthOfAll left⟩ =
            parentsFirst.amongChildren role kind above left (start + Tree.widthOfAll left)
                (first :: right) ++
              preorderAfter fuel ⟨.node role kind (left.reverse ++ first :: right), above, start⟩ := by
        intro left first right
        induction right generalizing left first with
        | nil =>
            intro fuel inside
            have walked := childHypothesis first (inside first List.mem_cons_self)
              (⟨role, kind, left, []⟩ :: above) (start + Tree.widthOfAll left) fuel
            simp only [Tree.size.sizeOfAll, Nat.add_zero, parentsFirst.amongChildren,
              List.append_nil, walked, preorderAfter, climb_of_last]
        | cons second right restHypothesis =>
            intro fuel inside
            have walked := childHypothesis first (inside first List.mem_cons_self)
              (⟨role, kind, left, second :: right⟩ :: above) (start + Tree.widthOfAll left)
              (Tree.size.sizeOfAll (second :: right) + fuel)
            have others := restHypothesis (first :: left) second fuel fun child member =>
              inside child (List.mem_cons_of_mem first member)
            have further : start + Tree.widthOfAll left + first.width =
                start + Tree.widthOfAll (first :: left) := by
              rw [Tree.widthOfAll_cons, Nat.add_assoc, Nat.add_comm first.width]
            rw [Tree.size.sizeOfAll, Nat.add_assoc, walked, parentsFirst.amongChildren, further,
              List.append_assoc, preorderAfter, climb_of_sibling, further]
            simp only [others, List.reverse_cons, List.append_assoc, List.singleton_append]
      cases children with
      | nil =>
          rw [Tree.size, Tree.size.sizeOfAll, Nat.zero_add, Nat.add_comm]
          exact preorderFrom_childless fuel _ rfl
      | cons first right =>
          have walked := among [] first right fuel fun _ member => member
          rw [Tree.size, Nat.add_right_comm, preorderFrom]
          simp only [firstChild?]
          rw [parentsFirst, List.cons_append]
          exact congrArg _ walked

/-- A walk from the top lists a whole tree, parents before children. -/
theorem preorder_eq (tree : Tree) : preorder tree = parentsFirst tree [] 0 := by
  have walked := preorderFrom_eq tree [] 0 0
  rwa [Nat.add_zero, preorderAfter, show (climb ⟨tree, [], 0⟩).2 = none from rfl,
    List.append_nil] at walked

/-- The places in a tree lie where the tree lies. -/
theorem range_of_parentsFirst {tree : Tree} {above : List Frame} {start : Nat} {place : Place}
    (member : place ∈ parentsFirst tree above start) :
    start ≤ place.start ∧ place.stop ≤ start + tree.width := by
  induction tree using Tree.childInduction generalizing above start with
  | leaf role kind letters =>
      rw [parentsFirst, List.mem_singleton] at member
      rw [member]
      exact ⟨Nat.le_refl _, Nat.le_refl _⟩
  | node role kind children childHypothesis =>
      have among : ∀ (trees left : List Tree) (start : Nat), (∀ tree ∈ trees, tree ∈ children) →
          place ∈ parentsFirst.amongChildren role kind above left start trees →
          start ≤ place.start ∧ place.stop ≤ start + Tree.widthOfAll trees := by
        intro trees
        induction trees with
        | nil => intro _ _ _ member; cases member
        | cons tree rest restHypothesis =>
            intro left start inside member
            rw [Tree.widthOfAll_cons]
            rcases List.mem_append.mp member with inTree | inRest
            · have bounds := childHypothesis tree (inside tree List.mem_cons_self) inTree
              omega
            · have bounds := restHypothesis (tree :: left) (start + tree.width)
                (fun other member => inside other (List.mem_cons_of_mem tree member)) inRest
              omega
      rcases List.mem_cons.mp member with rfl | inChildren
      · exact ⟨Nat.le_refl _, Nat.le_refl _⟩
      · exact among children [] start (fun _ member => member) inChildren

/-- The places of neighbouring trees that begin at a position, whatever lies above them. -/
inductive Walked : List Tree → Nat → List Place → Prop where
  | nil (start : Nat) : Walked [] start []
  | cons {tree : Tree} {rest : List Tree} {start : Nat} {places : List Place} (above : List Frame)
      (others : Walked rest (start + tree.width) places) :
      Walked (tree :: rest) start (parentsFirst tree above start ++ places)

theorem walked_amongChildren (role : Option Role) (kind : Kind) (above : List Frame)
    (left : List Tree) (start : Nat) (trees : List Tree) :
    Walked trees start (parentsFirst.amongChildren role kind above left start trees) := by
  induction trees generalizing left start with
  | nil => exact .nil start
  | cons tree rest inductionHypothesis => exact .cons _ (inductionHypothesis _ _)

namespace Walked

theorem split {first second : List Tree} {start : Nat} {places : List Place}
    (walked : Walked (first ++ second) start places) :
    ∃ front behind, places = front ++ behind ∧ Walked first start front ∧
      Walked second (start + Tree.widthOfAll first) behind := by
  induction first generalizing start places with
  | nil => exact ⟨[], places, rfl, .nil start, walked⟩
  | cons tree first inductionHypothesis =>
      rw [List.cons_append] at walked
      cases walked with
      | cons above others =>
          obtain ⟨front, behind, rfl, isFront, isBehind⟩ := inductionHypothesis others
          rw [Nat.add_assoc, ← Tree.widthOfAll_cons] at isBehind
          exact ⟨_, behind, (List.append_assoc _ _ _).symm, .cons above isFront, isBehind⟩

/-- Each place lies in one of the trees. -/
theorem mem {trees : List Tree} {start : Nat} {places : List Place} {place : Place}
    (walked : Walked trees start places) (member : place ∈ places) :
    ∃ tree ∈ trees, ∃ above position, place ∈ parentsFirst tree above position := by
  induction walked with
  | nil => cases member
  | @cons tree rest start places above others othersHypothesis =>
      rcases List.mem_append.mp member with inTree | inRest
      · exact ⟨tree, List.mem_cons_self, above, start, inTree⟩
      · obtain ⟨other, isOther, found⟩ := othersHypothesis inRest
        exact ⟨other, List.mem_cons_of_mem tree isOther, found⟩

/-- The places lie where the trees lie. -/
theorem range {trees : List Tree} {start : Nat} {places : List Place} {place : Place}
    (walked : Walked trees start places) (member : place ∈ places) :
    start ≤ place.start ∧ place.stop ≤ start + Tree.widthOfAll trees := by
  induction walked with
  | nil => cases member
  | cons above others othersHypothesis =>
      rw [Tree.widthOfAll_cons]
      rcases List.mem_append.mp member with inTree | inRest
      · have bounds := range_of_parentsFirst inTree
        omega
      · have bounds := othersHypothesis inRest
        omega

end Walked

/-- The places among some children lie where the children lie. -/
theorem range_of_amongChildren {role : Option Role} {kind : Kind} {above : List Frame}
    {left trees : List Tree} {start : Nat} {place : Place}
    (member : place ∈ parentsFirst.amongChildren role kind above left start trees) :
    start ≤ place.start ∧ place.stop ≤ start + Tree.widthOfAll trees :=
  (walked_amongChildren role kind above left start trees).range member

/-- What holds at the top and passes from every place to its children holds at all places. -/
theorem parentsFirst_induction {motive : Tree → List Frame → Nat → Prop}
    (down : ∀ role kind left child right above start,
      motive (.node role kind (left.reverse ++ child :: right)) above start →
        motive child (⟨role, kind, left, right⟩ :: above) (start + Tree.widthOfAll left))
    {tree : Tree} {above : List Frame} {start : Nat} {place : Place} (top : motive tree above start)
    (member : place ∈ parentsFirst tree above start) :
    motive place.focus place.above place.start := by
  induction tree using Tree.childInduction generalizing above start with
  | leaf role kind letters =>
      rw [parentsFirst, List.mem_singleton] at member
      exact member ▸ top
  | node role kind children childHypothesis =>
      have among : ∀ trees left : List Tree, left.reverse ++ trees = children →
          place ∈ parentsFirst.amongChildren role kind above left (start + Tree.widthOfAll left) trees →
          motive place.focus place.above place.start := by
        intro trees
        induction trees with
        | nil => intro _ _ member; cases member
        | cons child rest restHypothesis =>
            intro left whole member
            rcases List.mem_append.mp member with inChild | inRest
            · refine childHypothesis child (whole ▸ List.mem_append_right _ List.mem_cons_self) ?_ inChild
              exact down role kind left child rest above start (whole ▸ top)
            · refine restHypothesis (child :: left) (by simpa using whole) ?_
              rwa [Tree.widthOfAll_cons, Nat.add_comm child.width, ← Nat.add_assoc]
      rcases List.mem_cons.mp member with rfl | inChildren
      · exact top
      · exact among children [] rfl inChildren

/-- The places in a tree of the source stand in the source. -/
theorem stands_of_parentsFirst {source : Text} {tree : Tree} {above : List Frame} {start : Nat}
    {place : Place} (stands : Text.StandsAt source start tree.text)
    (member : place ∈ parentsFirst tree above start) :
    Text.StandsAt source place.start place.text := by
  refine parentsFirst_induction (motive := fun tree _ start => Text.StandsAt source start tree.text)
    (fun role kind left child right _ start stands => ?_) stands member
  rw [Tree.text_node, Tree.textOfAll_append, Tree.textOfAll_cons] at stands
  have behind := stands.right.left
  rwa [← Tree.widthOfAll_eq, Tree.widthOfAll_reverse] at behind

/-- The places in a well-formed tree of the source are well formed and stand in the source. -/
theorem of_parentsFirst {source : Text} {tree : Tree} {above : List Frame} {start : Nat}
    {place : Place} (wellFormed : tree.WellFormed) (stands : Text.StandsAt source start tree.text)
    (member : place ∈ parentsFirst tree above start) :
    place.focus.WellFormed ∧ Text.StandsAt source place.start place.text := by
  refine ⟨?_, stands_of_parentsFirst stands member⟩
  refine parentsFirst_induction (motive := fun tree _ _ => tree.WellFormed)
    (fun role kind left child right _ _ wellFormed => ?_) wellFormed member
  exact wellFormed.children child (List.mem_append_right _ List.mem_cons_self)

/-- The places among some children are those in front of one of them, those in it and those behind it. -/
theorem amongChildren_around (role : Option Role) (kind : Kind) (above : List Frame)
    (left : List Tree) (start : Nat) (first : List Tree) (tree : Tree) (second : List Tree) :
    ∃ front inner behind,
      parentsFirst.amongChildren role kind above left start (first ++ tree :: second) =
        front ++ (parentsFirst tree inner (start + Tree.widthOfAll first) ++ behind) ∧
      Walked first start front ∧
      Walked second (start + Tree.widthOfAll first + tree.width) behind := by
  obtain ⟨front, rest, same, isFront, isRest⟩ :=
    (walked_amongChildren role kind above left start (first ++ tree :: second)).split
  cases isRest with
  | cons inner others => exact ⟨front, inner, _, same, isFront, others⟩

/-- A place among some children lies in front of one of them, in it or behind it. -/
theorem amongChildren_cut {role : Option Role} {kind : Kind} {above : List Frame}
    {left : List Tree} (first : List Tree) {second : List Tree} {tree : Tree} {start : Nat}
    {place : Place}
    (member : place ∈ parentsFirst.amongChildren role kind above left start
      (first ++ tree :: second)) :
    place.stop ≤ start + Tree.widthOfAll first ∨
      (∃ inner, place ∈ parentsFirst tree inner (start + Tree.widthOfAll first)) ∨
      (start + Tree.widthOfAll first + tree.width ≤ place.start ∧
        ∃ other ∈ second, ∃ inner position, place ∈ parentsFirst other inner position) := by
  obtain ⟨front, inner, behind, same, isFront, isBehind⟩ :=
    amongChildren_around role kind above left start first tree second
  rw [same, List.mem_append, List.mem_append] at member
  rcases member with inFront | inTree | inSecond
  · exact .inl (isFront.range inFront).2
  · exact .inr (.inl ⟨inner, inTree⟩)
  · exact .inr (.inr ⟨(isBehind.range inSecond).1, isBehind.mem inSecond⟩)

/-- The places that are still to be walked once all below a place has been walked. -/
def postorderAfter (fuel : Nat) (place : Place) : List Place :=
  place.climb.1 ++ match place.climb.2 with
    | some next => postorderFrom fuel next
    | none => []

theorem postorderFrom_childless (fuel : Nat) (place : Place)
    (childless : place.firstChild? = none) :
    postorderFrom (fuel + 1) place = place :: postorderAfter fuel place := by
  simp only [postorderFrom, childless]
  rfl

/-- The walk lists a tree, children before parents, and then goes on behind it. -/
theorem postorderFrom_eq (tree : Tree) (above : List Frame) (start fuel : Nat) :
    postorderFrom (tree.size + fuel) ⟨tree, above, start⟩ =
      childrenFirst tree above start ++ postorderAfter fuel ⟨tree, above, start⟩ := by
  induction tree using Tree.childInduction generalizing above start fuel with
  | leaf role kind letters =>
      rw [Tree.size, Nat.add_comm]
      exact postorderFrom_childless fuel _ rfl
  | node role kind children childHypothesis =>
      -- A parent is left on the way up from its last child, so it stands in what follows that child.
      have among : ∀ (left : List Tree) (first : Tree) (right : List Tree) (fuel : Nat),
          (∀ child ∈ first :: right, child ∈ children) →
          postorderFrom (Tree.size.sizeOfAll (first :: right) + fuel)
              ⟨first, ⟨role, kind, left, right⟩ :: above, start + Tree.widthOfAll left⟩ =
            childrenFirst.amongChildren role kind above left (start + Tree.widthOfAll left)
                (first :: right) ++
              ⟨.node role kind (left.reverse ++ first :: right), above, start⟩ ::
                postorderAfter fuel
                  ⟨.node role kind (left.reverse ++ first :: right), above, start⟩ := by
        intro left first right
        induction right generalizing left first with
        | nil =>
            intro fuel inside
            have walked := childHypothesis first (inside first List.mem_cons_self)
              (⟨role, kind, left, []⟩ :: above) (start + Tree.widthOfAll left) fuel
            simp only [Tree.size.sizeOfAll, Nat.add_zero, childrenFirst.amongChildren,
              List.append_nil, walked, postorderAfter, climb_of_last, List.cons_append]
        | cons second right restHypothesis =>
            intro fuel inside
            have walked := childHypothesis first (inside first List.mem_cons_self)
              (⟨role, kind, left, second :: right⟩ :: above) (start + Tree.widthOfAll left)
              (Tree.size.sizeOfAll (second :: right) + fuel)
            have others := restHypothesis (first :: left) second fuel fun child member =>
              inside child (List.mem_cons_of_mem first member)
            have further : start + Tree.widthOfAll left + first.width =
                start + Tree.widthOfAll (first :: left) := by
              rw [Tree.widthOfAll_cons, Nat.add_assoc, Nat.add_comm first.width]
            rw [Tree.size.sizeOfAll, Nat.add_assoc, walked, childrenFirst.amongChildren, further,
              List.append_assoc, postorderAfter, climb_of_sibling, further]
            simp only [others, List.reverse_cons, List.append_assoc, List.singleton_append,
              List.nil_append]
      cases children with
      | nil =>
          rw [Tree.size, Tree.size.sizeOfAll, Nat.zero_add, Nat.add_comm]
          exact postorderFrom_childless fuel _ rfl
      | cons first right =>
          have walked := among [] first right fuel fun _ member => member
          rw [Tree.size, Nat.add_right_comm, postorderFrom]
          simp only [firstChild?]
          rw [childrenFirst, List.append_assoc, List.singleton_append]
          exact walked

/-- A walk from the top lists a whole tree, children before parents. -/
theorem postorder_eq (tree : Tree) : postorder tree = childrenFirst tree [] 0 := by
  have walked := postorderFrom_eq tree [] 0 0
  rwa [Nat.add_zero, postorderAfter, show climb ⟨tree, [], 0⟩ = ([], none) from rfl,
    List.append_nil, List.append_nil] at walked

/-- Both orders list the same places. -/
theorem mem_parentsFirst_iff {tree : Tree} {above : List Frame} {start : Nat} {place : Place} :
    place ∈ parentsFirst tree above start ↔ place ∈ childrenFirst tree above start := by
  induction tree using Tree.childInduction generalizing above start with
  | leaf => exact Iff.rfl
  | node role kind children childHypothesis =>
      have among : ∀ (trees left : List Tree) (start : Nat), (∀ tree ∈ trees, tree ∈ children) →
          (place ∈ parentsFirst.amongChildren role kind above left start trees ↔
            place ∈ childrenFirst.amongChildren role kind above left start trees) := by
        intro trees
        induction trees with
        | nil => intro _ _ _; exact Iff.rfl
        | cons tree rest restHypothesis =>
            intro left start inside
            rw [parentsFirst.amongChildren, childrenFirst.amongChildren, List.mem_append,
              List.mem_append, childHypothesis tree (inside tree List.mem_cons_self),
              restHypothesis _ _ fun other member => inside other (List.mem_cons_of_mem tree member)]
      rw [parentsFirst, childrenFirst, List.mem_cons, List.mem_append, List.mem_singleton,
        among children [] start fun _ member => member]
      exact Or.comm

end Place

end ImportMeter.Script
