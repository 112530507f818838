/-
This file reads the fate of a dynamic import off the trees above it: injection leaves it alone as an
argument of the entry point, rewrites it if its only argument is a plain string, and skips it otherwise.
-/
import Mathlib.Data.List.Basic
import ImportMeter.Proofs.Script.Walk
import ImportMeter.Proofs.Script.Rewriting
import ImportMeter.Instrument.Inject

namespace ImportMeter.Instrument

open Script

/-- Where a tree stands with regard to calls of the entry point. -/
inductive Standing where
  | plain
  /-- It is a part of such a call. -/
  | inCall
  /-- It is an argument of such a call. -/
  | argument
  /-- It is awaited in an argument of such a call. -/
  | awaited
  deriving DecidableEq

namespace Standing

/-- Where the children of a tree stand. -/
def below (guards : List Text) (tree : Tree) (standing : Standing) : Standing :=
  if tree.kind = .callExpression then
    if tree.calleeName?.any guards.contains then .inCall else .plain
  else if tree.kind = .arguments && standing = .inCall then .argument
  else if tree.kind = .awaitExpression && standing = .argument then .awaited
  else .plain

theorem below_eq_inCall_iff {guards : List Text} {tree : Tree} {standing : Standing} :
    below guards tree standing = .inCall ↔
      tree.kind = .callExpression ∧ tree.calleeName?.any guards.contains = true := by
  rw [below]
  split
  next isCall => split <;> simp_all
  next notCall => split <;> (try split) <;> simp_all

theorem below_eq_argument_iff {guards : List Text} {tree : Tree} {standing : Standing} :
    below guards tree standing = .argument ↔ tree.kind = .arguments ∧ standing = .inCall := by
  rw [below]
  split
  next isCall => split <;> simp_all
  next notCall => split <;> (try split) <;> simp_all

theorem below_eq_awaited_iff {guards : List Text} {tree : Tree} {standing : Standing} :
    below guards tree standing = .awaited ↔ tree.kind = .awaitExpression ∧ standing = .argument := by
  rw [below]
  split
  next isCall => split <;> simp_all
  next notCall => split <;> (try split) <;> simp_all

/-- Where a tree stands below some nodes. -/
def ofFrames (guards : List Text) : Tree → List Frame → Standing
  | _, [] => .plain
  | tree, ⟨role, kind, left, right⟩ :: above =>
    let parent := .node role kind (left.reverse ++ tree :: right)
    below guards parent (ofFrames guards parent above)

section

variable {α : Type} (guards : List Text) (own : Standing → Tree → Nat → List α)

/-- Gathers what each tree gives where it stands, parents before children. -/
def gather : Standing → Tree → Nat → List α
  | standing, .leaf role kind letters, start => own standing (.leaf role kind letters) start
  | standing, .node role kind children, start =>
    own standing (.node role kind children) start ++
      among (below guards (.node role kind children) standing) children start
where
  among (standing : Standing) : List Tree → Nat → List α
    | [], _ => []
    | tree :: rest, start => gather standing tree start ++ among standing rest (start + tree.width)

end

/-- A walk over the places of a tree gathers the same. -/
theorem flatMap_parentsFirst {α : Type} (guards : List Text) (own : Standing → Tree → Nat → List α)
    (tree : Tree) (above : List Frame) (start : Nat) :
    (Place.parentsFirst tree above start).flatMap (fun place =>
        own (ofFrames guards place.focus place.above) place.focus place.start) =
      gather guards own (ofFrames guards tree above) tree start := by
  induction tree using Tree.childInduction generalizing above start with
  | leaf role kind letters =>
      rw [Place.parentsFirst, List.flatMap_singleton, gather]
  | node role kind children childHypothesis =>
      have among : ∀ (right left : List Tree) (start : Nat), left.reverse ++ right = children →
          (Place.parentsFirst.amongChildren role kind above left start right).flatMap (fun place =>
              own (ofFrames guards place.focus place.above) place.focus place.start) =
            gather.among guards own (below guards (.node role kind children)
              (ofFrames guards (.node role kind children) above)) right start := by
        intro right
        induction right with
        | nil => intro _ _ _; rfl
        | cons tree right restHypothesis =>
            intro left start whole
            have isChild : tree ∈ children := by rw [← whole]; simp
            have others := restHypothesis (tree :: left) (start + tree.width)
              (by rw [← whole, List.reverse_cons, List.append_assoc]; rfl)
            rw [Place.parentsFirst.amongChildren, List.flatMap_append, childHypothesis tree isChild,
              others, ofFrames, whole, gather.among]
      rw [Place.parentsFirst, List.flatMap_cons, among children [] start rfl, gather]

/-- True for an argument, awaited or not. -/
def isGuarded (standing : Standing) : Bool := standing = .argument || standing = .awaited

end Standing

/-- What becomes of a dynamic import. -/
inductive Fate where
  | guarded
  | rewritten
  | skipped
  deriving DecidableEq

/-- True for a call of `import`. -/
def isImportCall (tree : Tree) : Bool :=
  tree.kind = .callExpression && (tree.child? .callee).any (·.kind = .importWord)

def fateOf (standing : Standing) (call : Tree) : Fate :=
  if standing.isGuarded then .guarded
  else match call.givenArguments with
    | [path] => if (stringValue? path).isSome then .rewritten else .skipped
    | _ => .skipped

def Decision.fate : Decision → Fate
  | .guarded => .guarded
  | .rewritten _ => .rewritten
  | .skipped _ => .skipped

theorem isSome_dynamicImport (place : Place) :
    (DynamicImport.ofPlace? place).isSome = isImportCall place.focus := by
  have callee := Place.map_focus_child? place .callee
  rw [DynamicImport.ofPlace?, isImportCall, ← callee, Option.any_map]
  split
  next isImport => exact isImport.symm
  next notImport => exact (Bool.eq_false_iff.mpr notImport).symm

/-- What a dynamic import is made of. -/
theorem dynamicImport_eq_some {place : Place} {dynamicImport : DynamicImport}
    (found : DynamicImport.ofPlace? place = some dynamicImport) :
    dynamicImport = ⟨place, argumentList? place, (argumentsOf place).head?, (argumentsOf place).length⟩ ∧
      isImportCall place.focus = true := by
  have isImport := isSome_dynamicImport place
  rw [found, Option.isSome_some] at isImport
  refine ⟨?_, isImport.symm⟩
  rw [DynamicImport.ofPlace?] at found
  split at found
  · exact (Option.some.inj found).symm
  · cases found

/-- The place of a tree below some nodes knows where the tree stands. -/
theorem isArgumentOfCall_eq (guards : List Text) (tree : Tree) (above : List Frame) (start : Nat) :
    isArgumentOfCall ⟨tree, above, start⟩ guards =
      Decidable.decide (Standing.ofFrames guards tree above = .argument) := by
  rcases above with _ | ⟨⟨role, kind, left, right⟩, _ | ⟨⟨callRole, callKind, callLeft, callRight⟩, above⟩⟩
  · rfl
  · have notInCall : Standing.ofFrames guards (.node role kind (left.reverse ++ tree :: right)) [] ≠
        .inCall := by rw [Standing.ofFrames]; decide
    rw [Standing.ofFrames, Bool.eq_iff_iff, decide_eq_true_eq, Standing.below_eq_argument_iff,
      isArgumentOfCall, Place.parent?]
    simp [notInCall, Place.parent?]
  · rw [Standing.ofFrames, Bool.eq_iff_iff, decide_eq_true_eq, Standing.below_eq_argument_iff,
      Standing.ofFrames, Standing.below_eq_inCall_iff]
    simp only [isArgumentOfCall, Place.parent?, Bool.and_eq_true, decide_eq_true_eq, calleeName?_eq]
    rfl

/-- So does the place of an import, awaited or not. -/
theorem isArgumentOfCall_outer (guards : List Text) {place : Place} {dynamicImport : DynamicImport}
    (found : DynamicImport.ofPlace? place = some dynamicImport) :
    isArgumentOfCall dynamicImport.outer guards =
      (Standing.ofFrames guards place.focus place.above).isGuarded := by
  obtain ⟨rfl, isImport⟩ := dynamicImport_eq_some found
  rcases place with ⟨tree, above, start⟩
  cases above with
  | nil => rfl
  | cons frame above =>
      rcases frame with ⟨role, kind, left, right⟩
      have awaited : Standing.ofFrames guards tree (⟨role, kind, left, right⟩ :: above) = .awaited ↔
          kind = .awaitExpression ∧ Standing.ofFrames guards
            (.node role kind (left.reverse ++ tree :: right)) above = .argument :=
        Standing.below_eq_awaited_iff
      have argument : Standing.ofFrames guards tree (⟨role, kind, left, right⟩ :: above) = .argument ↔
          kind = .arguments ∧ Standing.ofFrames guards
            (.node role kind (left.reverse ++ tree :: right)) above = .inCall :=
        Standing.below_eq_argument_iff
      rw [DynamicImport.outer, Standing.isGuarded, Bool.eq_iff_iff, Bool.or_eq_true,
        decide_eq_true_eq, decide_eq_true_eq]
      simp only [Place.parent?]
      by_cases isAwait : kind = .awaitExpression
      · subst isAwait
        rw [if_pos (by rfl), isArgumentOfCall_eq, decide_eq_true_eq, awaited, argument]
        simp
      · rw [if_neg (show ¬ Place.kind ⟨.node role kind _, _, _⟩ = .awaitExpression from isAwait),
          isArgumentOfCall_eq, decide_eq_true_eq, awaited]
        simp [isAwait]

/-- The code's decision on an import is its fate. -/
theorem fate_decide (source localName marker : Text) (guards : List Text) {place : Place}
    {dynamicImport : DynamicImport} (found : DynamicImport.ofPlace? place = some dynamicImport) :
    (decide source localName marker guards dynamicImport).fate =
      fateOf (Standing.ofFrames guards place.focus place.above) place.focus := by
  have outer := isArgumentOfCall_outer guards found
  obtain ⟨rfl, isImport⟩ := dynamicImport_eq_some found
  have given := map_focus_argumentsOf place
  rw [decide, fateOf, outer, ← given]
  split
  next => rfl
  next =>
    rcases argumentsOf place with _ | ⟨path, _ | ⟨second, others⟩⟩
    · rfl
    · simp only [List.head?_cons, List.map_cons, List.map_nil]
      cases stringValue? path.focus with
      | none => rfl
      | some value => rfl
    · simp only [List.head?_cons, List.map_cons, List.length_cons]
      cases stringValue? path.focus with
      | none => rfl
      | some value => simp [Decision.fate, skip]

/-- The fate of a tree that is a dynamic import. -/
def fateAt (standing : Standing) (tree : Tree) (_start : Nat) : List Fate :=
  if isImportCall tree then [fateOf standing tree] else []

section

variable (guards : List Text)

/-- The fates of the dynamic imports in a tree, parents before children. -/
def fates : Standing → Tree → List Fate
  | standing, .leaf role kind letters => fateAt standing (.leaf role kind letters) 0
  | standing, .node role kind children =>
    fateAt standing (.node role kind children) 0 ++
      among (Standing.below guards (.node role kind children) standing) children
where
  among (standing : Standing) : List Tree → List Fate
    | [] => []
    | tree :: rest => fates standing tree ++ among standing rest

end

theorem gather_fateAt (guards : List Text) (standing : Standing) (tree : Tree) (start : Nat) :
    Standing.gather guards fateAt standing tree start = fates guards standing tree := by
  induction tree using Tree.childInduction generalizing standing start with
  | leaf => rfl
  | node role kind children childHypothesis =>
      have among : ∀ (trees : List Tree) (standing : Standing) (start : Nat),
          (∀ tree ∈ trees, tree ∈ children) →
          Standing.gather.among guards fateAt standing trees start =
            fates.among guards standing trees := by
        intro trees
        induction trees with
        | nil => intro _ _ _; rfl
        | cons tree rest restHypothesis =>
            intro standing start inside
            rw [Standing.gather.among, fates.among, childHypothesis tree (inside tree List.mem_cons_self),
              restHypothesis _ _ fun other member => inside other (List.mem_cons_of_mem tree member)]
      rw [Standing.gather, fates, among children _ start fun _ member => member]
      rfl

/-- The code decides on the dynamic imports of a script as their fates say. -/
theorem map_fate_decide (source localName marker : Text) (guards : List Text) (tree : Tree) :
    (dynamicImports tree).map (fun dynamicImport =>
        (decide source localName marker guards dynamicImport).fate) = fates guards .plain tree := by
  have walked := Standing.flatMap_parentsFirst guards fateAt tree [] 0
  rw [gather_fateAt, Standing.ofFrames] at walked
  rw [dynamicImports, Place.preorder_eq, List.map_filterMap, List.filterMap_eq_flatMap_toList,
    ← walked]
  refine congrArg (fun own => List.flatMap own _) (funext fun place => ?_)
  rw [fateAt, ← isSome_dynamicImport]
  cases found : DynamicImport.ofPlace? place with
  | none => rfl
  | some dynamicImport =>
      rw [Option.map_some, fate_decide source localName marker guards found]
      rfl

end ImportMeter.Instrument
