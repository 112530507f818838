/-
This file reads the parts of a script by slices of the source between offsets in bytes. No slice fails,
and what is read is what the tree holds.
-/
import ImportMeter.Proofs.Script.Child
import ImportMeter.Proofs.Script.Depth
import ImportMeter.Proofs.Script.Derivation
import ImportMeter.Proofs.Text.Offset
import ImportMeter.Script.Import

namespace ImportMeter.Script

/-- Attempts that all succeed give the list of the results. -/
theorem mapM_eq_some {α β : Type} {attempt : α → Option β} {result : α → β} {items : List α}
    (each : ∀ item ∈ items, attempt item = some (result item)) :
    items.mapM attempt = some (items.map result) := by
  induction items with
  | nil => rfl
  | cons item items inductionHypothesis =>
      obtain ⟨ofFirst, ofOthers⟩ := List.forall_mem_cons.mp each
      rw [List.mapM_cons, ofFirst, inductionHypothesis ofOthers]
      rfl

/-! ### Places around a place -/

namespace Place

theorem map_focus_children (place : Place) : place.children.map Place.focus = place.focus.children := by
  rcases place with ⟨tree, above, start⟩
  cases tree with
  | leaf => rfl
  | node role kind children =>
      rw [children_eq]
      exact map_focus_childPlaces role kind above [] start children

theorem childPlaces_subset (role : Option Role) (kind : Kind) (above : List Frame) (left : List Tree)
    (start : Nat) (trees : List Tree) :
    childPlaces role kind above left start trees ⊆
      parentsFirst.amongChildren role kind above left start trees := by
  induction trees generalizing left start with
  | nil => exact List.Subset.refl _
  | cons tree trees inductionHypothesis =>
      refine List.cons_subset.mpr ⟨List.mem_append_left _ ?_, ?_⟩
      · cases tree <;> exact List.mem_cons_self
      · exact List.subset_append_of_subset_right _ (inductionHypothesis _ _)

theorem mem_childPlaces (role : Option Role) (kind : Kind) (above : List Frame) (before left : List Tree)
    (start : Nat) (child : Tree) (right : List Tree) :
    (⟨child, ⟨role, kind, before.reverse ++ left, right⟩ :: above, start + Tree.widthOfAll before⟩ : Place) ∈
      childPlaces role kind above left start (before ++ child :: right) := by
  induction before generalizing left start with
  | nil => exact List.mem_cons_self
  | cons tree before inductionHypothesis =>
      have later := inductionHypothesis (tree :: left) (start + tree.width)
      rw [Nat.add_assoc, ← Tree.widthOfAll_cons] at later
      rw [List.reverse_cons, List.append_assoc]
      exact List.mem_cons_of_mem _ later

/-- The children of a place in a tree lie in the tree. -/
theorem child_mem {tree : Tree} {above : List Frame} {start : Nat} {place child : Place}
    (isChild : child ∈ place.children) (member : place ∈ parentsFirst tree above start) :
    child ∈ parentsFirst tree above start := by
  induction tree using Tree.childInduction generalizing above start with
  | leaf role kind letters =>
      rw [parentsFirst, List.mem_singleton] at member
      subst member
      cases isChild
  | node role kind children childHypothesis =>
      have among : ∀ (trees left : List Tree) (start : Nat), (∀ tree ∈ trees, tree ∈ children) →
          place ∈ parentsFirst.amongChildren role kind above left start trees →
          child ∈ parentsFirst.amongChildren role kind above left start trees := by
        intro trees
        induction trees with
        | nil => intro _ _ _ member; cases member
        | cons tree rest restHypothesis =>
            intro left start inside member
            rcases List.mem_append.mp member with inTree | inRest
            · exact List.mem_append_left _
                (childHypothesis tree (inside tree List.mem_cons_self) inTree)
            · exact List.mem_append_right _ (restHypothesis _ _
                (fun other member => inside other (List.mem_cons_of_mem tree member)) inRest)
      rcases List.mem_cons.mp member with rfl | inChildren
      · rw [children_eq] at isChild
        exact List.mem_cons_of_mem _ (childPlaces_subset _ _ _ _ _ _ isChild)
      · exact List.mem_cons_of_mem _ (among children [] start (fun _ member => member) inChildren)

/-- So does the parent of a place. -/
theorem parent_mem {tree : Tree} {place parent : Place} (isParent : place.parent? = some parent)
    (member : place ∈ parentsFirst tree [] 0) : parent ∈ parentsFirst tree [] 0 := by
  have atTop : (⟨tree, [], 0⟩ : Place) ∈ parentsFirst tree [] 0 := by
    cases tree <;> exact List.mem_cons_self
  refine (parentsFirst_induction
    (motive := fun inner above start => ⟨inner, above, start⟩ ∈ parentsFirst tree [] 0 ∧
      ∀ parent, Place.parent? ⟨inner, above, start⟩ = some parent → parent ∈ parentsFirst tree [] 0)
    (fun role kind left child right above start ⟨isNode, _⟩ => ?_) ⟨atTop, nofun⟩ member).2 parent isParent
  refine ⟨child_mem ?_ isNode, fun parent isParent => ?_⟩
  · have isChild := mem_childPlaces role kind above left.reverse [] start child right
    rw [children_eq]
    rwa [List.reverse_reverse, List.append_nil, Tree.widthOfAll_reverse] at isChild
  · have starts : start + Tree.widthOfAll left - Tree.width.widthOfAll left = start :=
      Nat.add_sub_cancel start _
    simp only [Place.parent?, starts, Option.some.injEq] at isParent
    exact isParent ▸ isNode

end Place

/-! ### Trees that a parser gives -/

/-- True for a tree whose parts may be cut out of the source: its leaves spell the source, lists of
arguments stand in parentheses, and literals are made of leaves, where an escape begins with a backslash. -/
structure Intact (source : Text) (tree : Tree) : Prop where
  text : tree.text = source
  arguments : ∀ place ∈ Place.preorder tree, place.kind = .arguments → ∃ inner,
    place.focus.children = .leaf none .mark ['('] :: inner ++ [.leaf none .mark [')']]
  literals : ∀ place ∈ Place.preorder tree, place.kind = .string → ∀ part ∈ place.focus.children,
    part = .leaf part.role? part.kind part.text ∧
      (part.kind = .escapeSequence → ∃ coded, part.text = '\\' :: coded)

/-- True unless a rule reads an escape in another way than as one. -/
def readsEscapes : Phrase → Bool
  | .token kind _ => kind ≠ .escapeSequence
  | .glued kind lexeme => kind ≠ .escapeSequence || match lexeme with
    | .escape => true
    | _ => false
  | _ => true

theorem grammar_readsEscapes (symbol : Symbol) :
    (grammar symbol).builders.all readsEscapes = true := by
  cases symbol with
  | binary level =>
      exact forall_binary (fun phrase => phrase.builders.all readsEscapes = true)
        (by decide +kernel) level
  | _ => decide +kernel

/-- An escape begins with a backslash. -/
theorem exists_coded {role : Option Role} {letters : Text}
    (builtBy : Rule.BuiltBy grammar IsBuilder (.leaf role .escapeSequence letters)) :
    ∃ coded, letters = '\\' :: coded := by
  have test {rule : Phrase} (isBuilder : IsBuilder rule) : readsEscapes rule = true :=
    isBuilder.passes (by decide +kernel) grammar_readsEscapes
  cases builtBy with
  | trivia _ shape => cases shape.isTrivia
  | token _ isAmong takes =>
      rcases isAmong with isToken | isGlued
      · exact absurd (test isToken) (by simp [readsEscapes])
      · have isEscape := test isGlued
        rename_i lexeme
        cases lexeme with
        | escape =>
            obtain ⟨text, length, found, rfl⟩ := takes
            have begins := head?_of_escapeLength found
            have positive := (Lexeme.escapeLength_pos found).2
            obtain ⟨rest, rfl⟩ := List.head?_eq_some_iff.mp begins
            obtain ⟨count, rfl⟩ := Nat.exists_eq_add_of_lt positive
            exact ⟨rest.take (0 + count), rfl⟩
        | _ => cases isEscape

/-- The tree of a script is intact. -/
theorem parse?_intact {source : Text} {tree : Tree} (parsed : parse? source = some tree) :
    Intact source tree := by
  obtain ⟨isText, wellFormed, _⟩ := parse?_sound parsed
  have isPlace {place : Place} (member : place ∈ Place.preorder tree) : place.focus.WellFormed := by
    rw [Place.preorder_eq] at member
    exact (Place.of_parentsFirst wellFormed (.whole tree.text) member).1
  refine ⟨isText, fun place member isArguments => ?_, fun place member isString part isPart => ?_⟩
  · have isArguments : place.focus.kind = .arguments := isArguments
    have shape := isPlace member
    rw [shape.eq_node (by rw [isArguments]; rfl), isArguments] at shape
    exact shape.nodeShape.arguments rfl
  · have isString : place.focus.kind = .string := isString
    have shape := isPlace member
    rw [shape.eq_node (by rw [isString]; rfl), isString] at shape
    have isLeaf := (shape.children part isPart).eq_leaf (shape.nodeShape.string rfl part isPart)
    refine ⟨isLeaf, fun isEscape => ?_⟩
    rw [Place.preorder_eq] at member
    have builtBy := Place.parentsFirst_induction
      (motive := fun tree _ _ => ∀ child ∈ tree.children, Rule.BuiltBy grammar IsBuilder child)
      (fun role kind left child right _ _ builtBy => (builtBy child (by simp [Tree.children])).children)
      (parse?_builtBy parsed) member part isPart
    rw [isLeaf, isEscape] at builtBy
    exact exists_coded builtBy

/-! ### Reading by slices -/

/-- The range of bytes that a range of characters takes. -/
def Range.inBytes (source : Text) (range : Range) : Range :=
  ⟨source.offsetOf range.start, source.offsetOf range.stop⟩

/-- The range of bytes that a place takes. -/
def Place.bytes (source : Text) (place : Place) : Range := place.range.inBytes source

/-- The text of a place, cut out of the source. -/
def Place.textIn? (source : Text) (place : Place) : Option Text :=
  source.sliceAt? (place.bytes source).start (place.bytes source).stop

/-- What an escape stands for, found by slices of the escape. -/
def escapedText? (escape : Text) : Option Text := do
  let body ← escape.sliceAt? 1 escape.utf8Length
  if body.head? = some 'x' || body.head? = some 'u' then
    let digits ← body.sliceAt? 1 body.utf8Length
    some ((hexNumber? (withoutBraces digits)).bind characterOf?).toList
  else some (escapedCharacter? body).toList

def partIn? (source : Text) (part : Place) : Option Text :=
  match part.kind with
  | .stringFragment => part.textIn? source
  | .escapeSequence => (part.textIn? source).bind escapedText?
  | _ => some []

/-- The value of a string literal; anything else has none. -/
def stringValueIn? (source : Text) (place : Place) : Option (Option Text) :=
  if place.kind = .string then
    (place.children.mapM (partIn? source)).map fun parts => some parts.flatten
  else some none

def calleeNameIn? (source : Text) (call : Place) : Option (Option Text) :=
  match (call.child? .callee).filter (·.kind = .identifier) with
  | some callee => (callee.textIn? source).map some
  | none => some none

def isArgumentOfCallIn? (source : Text) (place : Place) (callees : List Text) : Option Bool :=
  match place.parent? with
  | some list =>
    match list.parent? with
    | some call =>
      if list.kind = .arguments && call.kind = .callExpression then
        (calleeNameIn? source call).map fun name => name.any callees.contains
      else some false
    | none => some false
  | none => some false

def MarkedCall.ofPlaceIn? (source : Text) (callees : List Text) (marker : Text) (place : Place) :
    Option (Option MarkedCall) := do
  let name ← calleeNameIn? source place
  if place.kind = .callExpression && name.any callees.contains then
    match argumentsOf place with
    | modulePath :: second :: third :: fourth :: others =>
      let value ← stringValueIn? source fourth
      some (if value = some marker then
        match place.child? .callee, argumentList? place with
        | some callee, some arguments =>
          some ⟨place, callee, arguments, modulePath, fourth,
            (modulePath :: second :: third :: fourth :: others).length⟩
        | _, _ => none
      else none)
    | _ => some none
  else some none

def ImportBinding.ofPlaceIn? (source : Text) (place : Place) : Option (Option ImportBinding) :=
  if place.kind = .importStatement then
    match place.child? .source with
    | some literal => do
      let value ← stringValueIn? source literal
      let parts := ((place.children.find? (·.kind = .importClause)).map Place.children).getD []
      let names ← (parts.filter (·.kind = .identifier)).mapM (Place.textIn? source)
      some (value.map fun value => ⟨place, value, names.getLast?,
        (parts.map fun part => countOf part.focus).foldr (· + ·) 0⟩)
    | none => some none
  else some none

/-- The first declaration that imports the target by default. -/
def findBindingIn? (source : Text) (tree : Tree) (directory target : Path) :
    Option (Option ImportBinding) :=
  ((Place.top tree).namedChildren.mapM (ImportBinding.ofPlaceIn? source)).map fun bindings =>
    bindings.reduceOption.find? fun binding =>
      binding.defaultLocal.isSome && binding.resolvesTo directory target

/-- All marked calls of a script, children before parents. -/
def markedCallsIn? (source : Text) (callees : List Text) (marker : Text) (tree : Tree) :
    Option (List MarkedCall) :=
  ((Place.postorder tree).mapM (MarkedCall.ofPlaceIn? source callees marker)).map List.reduceOption

/-! ### What is read -/

theorem escapedText?_eq (coded : Text) :
    escapedText? ('\\' :: coded) = some (escapedCharacter? coded).toList := by
  have behind : ∀ (first : Char) (rest : Text), first.utf8Size = 1 →
      Text.sliceAt? (first :: rest) 1 (Text.utf8Length (first :: rest)) = some rest := by
    intro first rest single
    rw [Text.sliceAt?_eq_some_iff]
    refine ⟨[first], [], (List.append_nil _).symm, ?_, rfl⟩
    rw [Text.utf8Length_cons, single]
    rfl
  have whole := behind '\\' coded rfl
  cases coded with
  | nil => simp only [escapedText?, whole, Option.bind_eq_bind, Option.bind_some]; rfl
  | cons first rest =>
      by_cases isCode : first = 'x' ∨ first = 'u'
      · have single : first.utf8Size = 1 := by
          rcases isCode with rfl | rfl <;> rfl
        have value : escapedCharacter? (first :: rest) =
            (hexNumber? (withoutBraces rest)).bind characterOf? := by
          rcases isCode with rfl | rfl <;> simp [escapedCharacter?]
        simp [escapedText?, whole, behind first rest single, isCode, value]
      · simp [escapedText?, whole, isCode]

namespace Intact

variable {source : Text} {tree : Tree} {place : Place}

theorem textIn?_eq (intact : Intact source tree) (member : place ∈ Place.preorder tree) :
    place.textIn? source = some place.text := by
  rw [Place.preorder_eq] at member
  have stands : Text.StandsAt source place.start place.text :=
    Place.stands_of_parentsFirst (by rw [intact.text]; exact .whole source) member
  have stop : place.stop = place.start + place.text.length := by
    rw [Place.stop, Tree.width_eq, Place.text]
  rw [Place.textIn?, Place.bytes, Place.range, Range.inBytes, stop]
  exact stands.sliceAt?_eq

theorem child_mem {child : Place} (isChild : child ∈ place.children)
    (member : place ∈ Place.preorder tree) : child ∈ Place.preorder tree := by
  rw [Place.preorder_eq] at member ⊢
  exact Place.child_mem isChild member

theorem parent_mem {parent : Place} (isParent : place.parent? = some parent)
    (member : place ∈ Place.preorder tree) : parent ∈ Place.preorder tree := by
  rw [Place.preorder_eq] at member ⊢
  exact Place.parent_mem isParent member

theorem partIn?_eq (intact : Intact source tree) (member : place ∈ Place.preorder tree)
    (isString : place.kind = .string) {part : Place} (isChild : part ∈ place.children) :
    partIn? source part = some (partValue part.focus) := by
  have isFocus : part.focus ∈ place.focus.children := by
    rw [← Place.map_focus_children]
    exact List.mem_map_of_mem isChild
  obtain ⟨isLeaf, escape⟩ := intact.literals place member isString part.focus isFocus
  have isText := intact.textIn?_eq (child_mem isChild member)
  rcases part with ⟨part, above, start⟩
  cases part with
  | node => cases isLeaf
  | leaf role kind letters =>
      simp only [partIn?, isText]
      cases kind with
      | escapeSequence =>
          obtain ⟨coded, same⟩ := escape rfl
          obtain rfl : letters = '\\' :: coded := same
          exact escapedText?_eq coded
      | _ => rfl

theorem stringValueIn?_eq (intact : Intact source tree) (member : place ∈ Place.preorder tree) :
    stringValueIn? source place = some (stringValue? place.focus) := by
  rw [stringValueIn?, stringValue?]
  by_cases isString : place.kind = .string
  · have isFocus : place.focus.kind = .string := isString
    rw [if_pos isString, if_pos isFocus,
      mapM_eq_some fun part isChild => intact.partIn?_eq member isString isChild, Option.map_some,
      ← Place.map_focus_children, List.flatMap_map]
    rfl
  · have notFocus : ¬ place.focus.kind = .string := isString
    rw [if_neg isString, if_neg notFocus]

theorem calleeNameIn?_eq (intact : Intact source tree) (member : place ∈ Place.preorder tree) :
    calleeNameIn? source place = some (calleeName? place) := by
  rw [calleeNameIn?, calleeName?]
  cases found : (place.child? .callee).filter (fun callee => callee.kind = .identifier) with
  | none => rfl
  | some callee =>
      have isChild : callee ∈ place.children :=
        List.mem_of_find?_eq_some (Option.filter_eq_some_iff.mp found).1
      simp only [intact.textIn?_eq (child_mem isChild member), Option.map_some]

theorem isArgumentOfCallIn?_eq (intact : Intact source tree) (member : place ∈ Place.preorder tree)
    (callees : List Text) :
    isArgumentOfCallIn? source place callees = some (isArgumentOfCall place callees) := by
  rw [isArgumentOfCallIn?, isArgumentOfCall]
  cases isParent : place.parent? with
  | none => rfl
  | some list =>
      dsimp only
      cases isAbove : list.parent? with
      | none => rw [Bool.and_false]
      | some call =>
          have inTree := parent_mem isAbove (parent_mem isParent member)
          dsimp only
          rw [intact.calleeNameIn?_eq inTree, Option.map_some]
          cases decide (list.kind = .arguments) <;> cases decide (call.kind = .callExpression) <;> rfl

theorem argumentList?_mem {list : Place} (member : place ∈ Place.preorder tree)
    (found : argumentList? place = some list) : list ∈ Place.preorder tree :=
  child_mem (List.mem_of_find?_eq_some (Option.filter_eq_some_iff.mp found).1) member

theorem argumentsOf_mem {argument : Place} (member : place ∈ Place.preorder tree)
    (isArgument : argument ∈ argumentsOf place) : argument ∈ Place.preorder tree := by
  rw [argumentsOf] at isArgument
  split at isArgument
  next list found =>
    have inList := List.mem_of_mem_filter (List.mem_of_mem_filter isArgument)
    exact child_mem inList (argumentList?_mem member found)
  next => cases isArgument

theorem markedCall_eq (intact : Intact source tree) (member : place ∈ Place.preorder tree)
    (callees : List Text) (marker : Text) :
    MarkedCall.ofPlaceIn? source callees marker place =
      some (MarkedCall.ofPlace? callees marker place) := by
  rw [MarkedCall.ofPlaceIn?, MarkedCall.ofPlace?, intact.calleeNameIn?_eq member, Option.bind_eq_bind,
    Option.bind_some]
  by_cases called : (place.kind = .callExpression && (calleeName? place).any callees.contains) = true
  · rw [if_pos called, if_pos called]
    rcases arguments : argumentsOf place with _ | ⟨modulePath, _ | ⟨second, _ | ⟨third, _ | ⟨fourth, others⟩⟩⟩⟩
    · rfl
    · rfl
    · rfl
    · rfl
    · have isFourth : fourth ∈ argumentsOf place := by simp [arguments]
      have isValue := intact.stringValueIn?_eq (argumentsOf_mem member isFourth)
      exact Option.bind_eq_some_iff.mpr ⟨_, isValue, rfl⟩
  · rw [if_neg called, if_neg called]

theorem importBinding_eq (intact : Intact source tree) (member : place ∈ Place.preorder tree) :
    ImportBinding.ofPlaceIn? source place = some (ImportBinding.ofPlace? place) := by
  rw [ImportBinding.ofPlaceIn?, ImportBinding.ofPlace?]
  by_cases isImport : place.kind = .importStatement
  · rw [if_pos isImport, if_pos isImport]
    cases found : place.child? .source with
    | none => rfl
    | some literal =>
        have isChild : literal ∈ place.children := List.mem_of_find?_eq_some found
        have focuses : ((place.children.find? (·.kind = .importClause)).map (·.focus.children)).getD [] =
            (((place.children.find? (·.kind = .importClause)).map Place.children).getD []).map
              Place.focus := by
          cases place.children.find? (·.kind = .importClause) with
          | none => rfl
          | some clause => exact (Place.map_focus_children clause).symm
        have inTree : ∀ part ∈
            ((place.children.find? (·.kind = .importClause)).map Place.children).getD [],
            part ∈ Place.preorder tree := by
          intro part isPart
          cases isClause : place.children.find? (·.kind = .importClause) with
          | none =>
              rw [isClause] at isPart
              cases isPart
          | some clause =>
              rw [isClause] at isPart
              exact child_mem isPart (child_mem (List.mem_of_find?_eq_some isClause) member)
        dsimp only
        rw [focuses]
        generalize ((place.children.find? (·.kind = .importClause)).map Place.children).getD [] = parts
          at inTree
        have names : (parts.filter fun part => part.kind = .identifier).mapM (Place.textIn? source) =
            some ((parts.filter fun part => part.kind = .identifier).map Place.text) :=
          mapM_eq_some fun part isPart =>
            intact.textIn?_eq (inTree part (List.mem_of_mem_filter isPart))
        have last : ((parts.map Place.focus).filter (·.kind = .identifier)).getLast?.map Tree.text =
            ((parts.filter fun part => part.kind = .identifier).map Place.text).getLast? := by
          rw [List.filter_map, List.getLast?_map, List.getLast?_map, Option.map_map]
          rfl
        rw [intact.stringValueIn?_eq (child_mem isChild member), Option.bind_eq_bind, Option.bind_some,
          names, last, List.map_map]
        rfl
  · rw [if_neg isImport, if_neg isImport]

theorem findBindingIn?_eq (intact : Intact source tree) (directory target : Path) :
    findBindingIn? source tree directory target = some (findBinding? tree directory target) := by
  have atTop : Place.top tree ∈ Place.preorder tree := by
    rw [Place.preorder_eq]
    cases tree <;> exact List.mem_cons_self
  have each : ∀ place ∈ (Place.top tree).namedChildren,
      ImportBinding.ofPlaceIn? source place = some (ImportBinding.ofPlace? place) :=
    fun place isChild => intact.importBinding_eq (child_mem (List.mem_of_mem_filter isChild) atTop)
  rw [findBindingIn?, mapM_eq_some each, Option.map_some]
  change some ((List.filterMap id (List.map _ _)).find? _) = _
  rw [List.filterMap_map]
  rfl

theorem markedCallsIn?_eq (intact : Intact source tree) (callees : List Text) (marker : Text) :
    markedCallsIn? source callees marker tree = some (markedCalls callees marker tree) := by
  have each : ∀ place ∈ Place.postorder tree, MarkedCall.ofPlaceIn? source callees marker place =
      some (MarkedCall.ofPlace? callees marker place) := by
    intro place member
    rw [Place.postorder_eq, ← Place.mem_parentsFirst_iff, ← Place.preorder_eq] at member
    exact intact.markedCall_eq member callees marker
  rw [markedCallsIn?, mapM_eq_some each, Option.map_some]
  change some (List.filterMap id (List.map _ _)) = _
  rw [List.filterMap_map]
  rfl

end Intact

end ImportMeter.Script
