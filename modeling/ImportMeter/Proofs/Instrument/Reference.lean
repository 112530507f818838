/-
This file proves that the import of the entry point goes exactly when nothing that removal leaves still
uses it. The code decides by ranges of the source; here every letter that unwrapping leaves carries the
position that it is copied from, and the two agree on all uses of the name.
-/
import ImportMeter.Proofs.Instrument.Removal

namespace ImportMeter.Instrument

open Script

/-- A letter that unwrapping leaves, with the position that it is copied from. What unwrapping writes
itself is copied from nowhere. -/
structure Letter where
  char : Char
  origin : Option Nat

namespace Letter

/-- The letters of a text that stands at a position. -/
def copied : Text → Nat → List Letter
  | [], _ => []
  | char :: rest, start => ⟨char, some start⟩ :: copied rest (start + 1)

def written (text : Text) : List Letter := text.map fun char => ⟨char, none⟩

/-- True if some letter is copied from a position. -/
def Copies (letters : List Letter) (position : Nat) : Prop :=
  ∃ letter ∈ letters, letter.origin = some position

@[simp] theorem map_char_copied (text : Text) (start : Nat) :
    (copied text start).map char = text := by
  induction text generalizing start with
  | nil => rfl
  | cons letter rest inductionHypothesis =>
      rw [copied, List.map_cons, inductionHypothesis]

@[simp] theorem map_char_written (text : Text) : (written text).map char = text := by
  rw [written, List.map_map]
  exact List.map_id text

/-- The letters of a text are copied from where they stand. -/
theorem mem_copied {text : Text} {start : Nat} {letter : Letter} :
    letter ∈ copied text start ↔
      ∃ index, text[index]? = some letter.char ∧ letter.origin = some (start + index) := by
  induction text generalizing start with
  | nil => simp [copied]
  | cons char rest inductionHypothesis =>
      rw [copied, List.mem_cons, inductionHypothesis]
      constructor
      · rintro (rfl | ⟨index, found, origin⟩)
        · exact ⟨0, rfl, rfl⟩
        · exact ⟨index + 1, found, by rw [origin, Nat.add_right_comm, Nat.add_assoc]⟩
      · rintro ⟨index, found, origin⟩
        cases index with
        | zero =>
            refine .inl ?_
            rcases letter with ⟨own, place⟩
            obtain rfl : char = own := Option.some.inj found
            obtain rfl : place = some start := origin
            rfl
        | succ index =>
            exact .inr ⟨index, found, by rw [origin, Nat.add_right_comm, Nat.add_assoc]⟩

theorem copies_copied {text : Text} {start position : Nat} :
    Copies (copied text start) position ↔ start ≤ position ∧ position < start + text.length := by
  constructor
  · rintro ⟨letter, member, origin⟩
    obtain ⟨index, found, same⟩ := mem_copied.mp member
    obtain ⟨inside, _⟩ := List.getElem?_eq_some_iff.mp found
    rw [origin] at same
    have same := Option.some.inj same
    omega
  · rintro ⟨low, high⟩
    have inside : position - start < text.length := by omega
    refine ⟨⟨text[position - start], some position⟩, mem_copied.mpr ⟨position - start, ?_, ?_⟩, rfl⟩
    · exact List.getElem?_eq_getElem inside
    · rw [Nat.add_sub_cancel' low]

theorem copies_written (text : Text) (position : Nat) : ¬ Copies (written text) position := by
  rintro ⟨letter, member, origin⟩
  obtain ⟨char, _, rfl⟩ := List.mem_map.mp member
  cases origin

theorem copies_append {first second : List Letter} {position : Nat} :
    Copies (first ++ second) position ↔ Copies first position ∨ Copies second position := by
  simp only [Copies, List.mem_append, or_and_right, exists_or]

end Letter

section

variable (source : Text) (callees : List Text) (marker : Text)

/-- The letters of a tree in a range of the source, as unwrapping leaves them. -/
def lettersIn : Tree → Range → Nat → List Letter
  | .leaf _ _ letters, range, start =>
    Letter.copied (letters.slice (range.start - start) (range.stop - start))
      (start + (range.start - start))
  | .node role kind children, range, start =>
    match MarkedCall.ofPlace? callees marker ⟨.node role kind children, [], start⟩ with
    | some marked =>
      if range.contains marked.call.range then
        Letter.written "import(".toList ++ among children (keptRange marked) start ++
          Letter.copied (trailOf source marked) marked.marker.stop ++ Letter.written [')']
      else among children range start
    | none => among children range start
where
  among : List Tree → Range → Nat → List Letter
    | [], _, _ => []
    | tree :: rest, range, start =>
      lettersIn tree range start ++ among rest range (start + tree.width)

end

variable {source : Text} {callees : List Text} {marker : Text}

theorem lettersIn_marked {role : Option Role} {kind : Kind} {children : List Tree} {range : Range}
    {start : Nat} {marked : MarkedCall}
    (found : MarkedCall.ofPlace? callees marker ⟨.node role kind children, [], start⟩ = some marked)
    (contained : range.contains marked.call.range = true) :
    lettersIn source callees marker (.node role kind children) range start =
      Letter.written "import(".toList ++
        lettersIn.among source callees marker children (keptRange marked) start ++
          Letter.copied (trailOf source marked) marked.marker.stop ++ Letter.written [')'] := by
  rw [lettersIn]
  simp only [found, contained, if_true]

theorem lettersIn_unmarked {role : Option Role} {kind : Kind} {children : List Tree} {range : Range}
    {start : Nat}
    (unmarked : MarkedCall.ofPlace? callees marker ⟨.node role kind children, [], start⟩ = none) :
    lettersIn source callees marker (.node role kind children) range start =
      lettersIn.among source callees marker children range start := by
  rw [lettersIn]
  simp only [unmarked]

/-- The letters spell the unwrapped text. -/
theorem map_char_lettersIn (tree : Tree) (range : Range) (start : Nat) :
    (lettersIn source callees marker tree range start).map Letter.char =
      unwrapIn source callees marker tree range start := by
  induction tree using Tree.childInduction generalizing range start with
  | leaf role kind letters => exact Letter.map_char_copied _ _
  | node role kind children childHypothesis =>
      have among : ∀ (trees : List Tree) (range : Range) (start : Nat),
          (∀ tree ∈ trees, tree ∈ children) →
          (lettersIn.among source callees marker trees range start).map Letter.char =
            unwrapIn.among source callees marker trees range start := by
        intro trees
        induction trees with
        | nil => intro _ _ _; rfl
        | cons tree rest restHypothesis =>
            intro range start inside
            rw [lettersIn.among, unwrapIn.among, List.map_append,
              childHypothesis tree (inside tree List.mem_cons_self),
              restHypothesis _ _ fun other member => inside other (List.mem_cons_of_mem tree member)]
      have within := fun range => among children range start fun _ member => member
      rw [lettersIn, unwrapIn]
      cases MarkedCall.ofPlace? callees marker ⟨.node role kind children, [], start⟩ with
      | none => exact within range
      | some marked =>
          by_cases contained : range.contains marked.call.range = true
          · simp only [contained, if_true, List.map_append, Letter.map_char_written,
              Letter.map_char_copied, within]
          · simp only [contained, Bool.false_eq_true, if_false, within]

/-- A letter stands in the source where it is copied from. -/
theorem lettersIn_source {tree : Tree} {range : Range} {start : Nat}
    (stands : Text.StandsAt source start tree.text) {letter : Letter} {position : Nat}
    (member : letter ∈ lettersIn source callees marker tree range start)
    (origin : letter.origin = some position) : source[position]? = some letter.char := by
  induction tree using Tree.childInduction generalizing range start with
  | leaf role kind letters =>
      obtain ⟨index, found, same⟩ := Letter.mem_copied.mp member
      obtain rfl := Option.some.inj (origin.symm.trans same)
      rw [Nat.add_assoc]
      exact stands.getElem? (Text.getElem?_of_slice found)
  | node role kind children childHypothesis =>
      have among : ∀ (trees : List Tree) (range : Range) (start : Nat),
          (∀ tree ∈ trees, tree ∈ children) →
          Text.StandsAt source start (Tree.textOfAll trees) →
          letter ∈ lettersIn.among source callees marker trees range start →
          source[position]? = some letter.char := by
        intro trees
        induction trees with
        | nil => intro _ _ _ _ member; cases member
        | cons tree rest restHypothesis =>
            intro range start inside stands member
            rw [Tree.textOfAll_cons] at stands
            have restStands := stands.right
            rw [← Tree.width_eq] at restStands
            rcases List.mem_append.mp member with inTree | inRest
            · exact childHypothesis tree (inside tree List.mem_cons_self) stands.left inTree
            · exact restHypothesis range (start + tree.width)
                (fun other member => inside other (List.mem_cons_of_mem tree member)) restStands inRest
      have within := fun range => among children range start (fun _ member => member) stands
      rw [lettersIn] at member
      split at member
      next marked found =>
        split at member
        next =>
          simp only [List.mem_append] at member
          rcases member with ((isNew | inChildren) | inTrail) | isNew
          · exact absurd ⟨letter, isNew, origin⟩ (Letter.copies_written _ position)
          · exact within _ inChildren
          · obtain ⟨index, found, same⟩ := Letter.mem_copied.mp inTrail
            obtain rfl := Option.some.inj (origin.symm.trans same)
            rw [trailOf] at found
            split at found
            · exact Text.getElem?_of_slice found
            · cases found
          · exact absurd ⟨letter, isNew, origin⟩ (Letter.copies_written _ position)
        next => exact within range member
      next => exact within range member

/-- Where the text stands that is carried over from behind the marker. -/
theorem trail_bounds (source : Text) {tree : Tree} {start : Nat} {marked : MarkedCall}
    (found : MarkedCall.ofPlace? callees marker ⟨tree, [], start⟩ = some marked)
    (wellFormed : tree.WellFormed) :
    start ≤ marked.marker.stop ∧
      marked.marker.stop + (trailOf source marked).length < start + tree.width := by
  obtain ⟨role, before, own, front, after, behind, same, listStart, markerStart, listStop, _⟩ :=
    MarkedCall.split_marker found wellFormed
  obtain rfl : tree = _ := same
  have listStart : marked.arguments.start = start + Tree.widthOfAll before := listStart
  have markerStop : marked.marker.stop = marked.marker.start + marked.marker.focus.width := rfl
  have length : (trailOf source marked).length ≤ Tree.widthOfAll after := by
    rw [trailOf]
    split
    · rw [Text.slice, List.length_take]
      omega
    · exact Nat.zero_le _
  simp only [Tree.width_node, Tree.widthOfAll_append, Tree.widthOfAll_cons, Tree.widthOfAll_nil,
    Tree.width_leaf, List.length_singleton]
  omega

/-- Letters are copied from the range that is unwrapped, and from within the tree. -/
theorem lettersIn_bounds {tree : Tree} {range : Range} {start position : Nat}
    (wellFormed : tree.WellFormed)
    (copies : Letter.Copies (lettersIn source callees marker tree range start) position) :
    start ≤ position ∧ position < start + tree.width ∧
      range.start ≤ position ∧ position < range.stop := by
  induction tree using Tree.childInduction generalizing range start with
  | leaf role kind letters =>
      obtain ⟨low, high⟩ := Letter.copies_copied.mp copies
      rw [Text.slice, List.length_take, List.length_drop] at high
      rw [Tree.width_leaf]
      omega
  | node role kind children childHypothesis =>
      have among : ∀ (trees : List Tree) (range : Range) (start : Nat),
          (∀ tree ∈ trees, tree ∈ children) →
          Letter.Copies (lettersIn.among source callees marker trees range start) position →
          start ≤ position ∧ position < start + Tree.widthOfAll trees ∧
            range.start ≤ position ∧ position < range.stop := by
        intro trees
        induction trees with
        | nil => rintro _ _ _ ⟨_, member, _⟩; cases member
        | cons tree rest restHypothesis =>
            intro range start inside copies
            have member := inside tree List.mem_cons_self
            rw [Tree.widthOfAll_cons]
            rcases Letter.copies_append.mp copies with inTree | inRest
            · have bounds := childHypothesis tree member (wellFormed.children tree member) inTree
              omega
            · have bounds := restHypothesis range (start + tree.width)
                (fun other member => inside other (List.mem_cons_of_mem tree member)) inRest
              omega
      have within := fun range => among children range start fun _ member => member
      rw [Tree.width_node]
      rw [lettersIn] at copies
      split at copies
      next marked found =>
        split at copies
        next contained =>
          rw [range_of_marked found, Range.contains_iff, Tree.width_node] at contained
          simp only [Letter.copies_append, Letter.copies_written, false_or, or_false] at copies
          have bounds : start ≤ position ∧ position < start + Tree.widthOfAll children := by
            rcases copies with inChildren | inTrail
            · exact ⟨(within _ inChildren).1, (within _ inChildren).2.1⟩
            · have stands := Letter.copies_copied.mp inTrail
              have trail := trail_bounds source found wellFormed
              rw [Tree.width_node] at trail
              omega
          simp only at contained
          omega
        next => exact within range copies
      next => exact within range copies

theorem isToken_of_isReferenceKind {kind : Kind} (reference : isReferenceKind kind = true) :
    kind.isToken = true := by
  rw [isReferenceKind, Bool.or_eq_true, decide_eq_true_eq, decide_eq_true_eq] at reference
  rcases reference with rfl | rfl
  · rfl
  · rfl

/-- What is no argument of a call is no reference either. -/
theorem isReferenceKind_between {tree : Tree} {above : List Frame} {start : Nat} {place : Place}
    (wellFormed : tree.WellFormed) (plain : tree.isArgument = false)
    (member : place ∈ Place.parentsFirst tree above start) : isReferenceKind place.kind = false := by
  rw [wellFormed.eq_leaf (Tree.isToken_of_isArgument plain), Place.parentsFirst,
    List.mem_singleton] at member
  have sameKind : place.kind = tree.kind := by
    rw [member]
    rfl
  revert plain
  rw [sameKind, Tree.isArgument]
  cases tree.kind <;> simp [Kind.isNamed, isReferenceKind]

/-- A reference is not a node, so it lies among the children. -/
theorem reference_in_children {role : Option Role} {kind : Kind} {children : List Tree}
    {above : List Frame} {start : Nat} {place : Place}
    (wellFormed : (Script.Tree.node role kind children).WellFormed)
    (reference : isReferenceKind place.kind = true)
    (member : place ∈ Place.parentsFirst (.node role kind children) above start) :
    place ∈ Place.parentsFirst.amongChildren role kind above [] start children := by
  rcases List.mem_cons.mp member with rfl | inChildren
  · have isToken := isToken_of_isReferenceKind reference
    have isNode := wellFormed.nodeShape.isNode
    rw [Place.kind, Tree.kind, isNode] at isToken
    cases isToken
  · exact inChildren

/-- The range that is kept of a marked call cuts no reference. -/
theorem keptRange_reference {role : Option Role} {kind : Kind} {children : List Tree}
    {above : List Frame} {start : Nat} {marked : MarkedCall} {place : Place}
    (wellFormed : (Script.Tree.node role kind children).WellFormed)
    (found : MarkedCall.ofPlace? callees marker ⟨.node role kind children, [], start⟩ = some marked)
    (reference : isReferenceKind place.kind = true)
    (member : place ∈ Place.parentsFirst.amongChildren role kind above [] start children) :
    (keptRange marked).contains place.range = true ∨ place.stop ≤ (keptRange marked).start ∨
      (keptRange marked).stop ≤ place.start := by
  obtain ⟨_, before, own, front, after, behind, same, listStart, pathStart, _⟩ :=
    MarkedCall.split found wellFormed
  obtain ⟨rfl, rfl, rfl⟩ := Script.Tree.node.inj same
  have listStart : marked.arguments.start = start + Tree.widthOfAll before := listStart
  have keptStart : (keptRange marked).start = marked.arguments.start + 1 := rfl
  have keptStop : (keptRange marked).stop =
      marked.modulePath.start + marked.modulePath.focus.width := rfl
  have rangeStart : place.range.start = place.start := rfl
  have rangeStop : place.range.stop = place.stop := rfl
  rw [Range.contains_iff]
  rcases Place.amongChildren_cut _ member with inBefore | ⟨inner, inList⟩ | ⟨inBehind, _⟩
  · omega
  · have listWellFormed := wellFormed.children _ (List.mem_append_right before List.mem_cons_self)
    have inArguments := reference_in_children listWellFormed reference inList
    rcases Place.amongChildren_cut (.leaf none .mark ['('] :: front) inArguments with
      inFront | ⟨inner, inPath⟩ | ⟨inAfter, _⟩
    · rcases Place.amongChildren_cut [] inArguments with
        isNothing | ⟨_, isOpening⟩ | ⟨inside, _⟩
      · have atStart := (Place.range_of_amongChildren inArguments).1
        rw [Tree.widthOfAll_nil] at isNothing
        omega
      · have bounds := Place.range_of_parentsFirst isOpening
        rw [Tree.widthOfAll_nil, Tree.width_leaf, List.length_singleton] at bounds
        omega
      · rw [Tree.widthOfAll_nil, Tree.width_leaf, List.length_singleton] at inside
        rw [Tree.widthOfAll_cons, Tree.width_leaf, List.length_singleton] at inFront
        omega
    · have bounds := Place.range_of_parentsFirst inPath
      rw [Tree.widthOfAll_cons, Tree.width_leaf, List.length_singleton] at bounds
      omega
    · rw [Tree.widthOfAll_cons, Tree.width_leaf, List.length_singleton] at inAfter
      omega
  · simp only [Tree.width_node, Tree.widthOfAll_append, Tree.widthOfAll_cons, Tree.width_leaf,
      List.cons_append, List.length_singleton] at inBehind
    omega

/-- What stands between the marker and the closing parenthesis of a call with four arguments holds no
reference. -/
theorem trail_reference (source : Text) {role : Option Role} {kind : Kind} {children : List Tree}
    {above : List Frame} {start position : Nat} {marked : MarkedCall} {place : Place}
    (wellFormed : (Script.Tree.node role kind children).WellFormed)
    (found : MarkedCall.ofPlace? callees marker ⟨.node role kind children, [], start⟩ = some marked)
    (reference : isReferenceKind place.kind = true)
    (member : place ∈ Place.parentsFirst.amongChildren role kind above [] start children)
    (low : place.start ≤ position) (high : position < place.stop) :
    ¬ Letter.Copies (Letter.copied (trailOf source marked) marked.marker.stop) position := by
  obtain ⟨_, before, own, front, after, behind, same, listStart, markerStart, listStop, plain⟩ :=
    MarkedCall.split_marker found wellFormed
  obtain ⟨rfl, rfl, rfl⟩ := Script.Tree.node.inj same
  have listStart : marked.arguments.start = start + Tree.widthOfAll before := listStart
  have markerStop : marked.marker.stop = marked.marker.start + marked.marker.focus.width := rfl
  rw [Letter.copies_copied, trailOf]
  split
  next four =>
    rw [Text.slice, List.length_take, listStop]
    rintro ⟨begins, ends⟩
    have listWellFormed := wellFormed.children _ (List.mem_append_right before List.mem_cons_self)
    rcases Place.amongChildren_cut _ member with inBefore | ⟨inner, inList⟩ | ⟨inBehind, _⟩
    · omega
    · have inArguments := reference_in_children listWellFormed reference inList
      have width : Tree.widthOfAll (.leaf none .mark ['('] :: front) = 1 + Tree.widthOfAll front := rfl
      rcases Place.amongChildren_cut (.leaf none .mark ['('] :: front) inArguments with
        inFront | ⟨inner, isMarker⟩ | ⟨_, inAfter⟩
      · omega
      · have bounds := Place.range_of_parentsFirst isMarker
        omega
      · obtain ⟨other, isOther, inner, start, inOther⟩ := inAfter
        have notArgument : other.isArgument = false := by
          rcases List.mem_append.mp isOther with inTrail | isClosing
          · exact plain four other inTrail
          · rw [List.mem_singleton.mp isClosing]
            rfl
        have otherWellFormed := listWellFormed.children other
          (List.mem_append_right (.leaf none .mark ['('] :: front) (List.mem_cons_of_mem _ isOther))
        rw [isReferenceKind_between otherWellFormed notArgument inOther] at reference
        cases reference
    · simp only [Tree.width_node, Tree.widthOfAll_append, Tree.widthOfAll_cons,
        Tree.widthOfAll_nil, Tree.width_leaf, List.length_singleton] at inBehind
      omega
  next =>
    rw [List.length_nil]
    omega

/-- Where the marked calls of a tree stand. -/
theorem range_of_parentsFirst {tree : Tree} {above : List Frame} {start : Nat} {marked : MarkedCall}
    (member : marked ∈ (Place.parentsFirst tree above start).filterMap
      (MarkedCall.ofPlace? callees marker)) :
    start ≤ marked.call.start ∧ marked.call.stop ≤ start + tree.width := by
  obtain ⟨place, inTree, found⟩ := List.mem_filterMap.mp member
  rw [(MarkedCall.ofPlace?_eq_some found).1]
  exact Place.range_of_parentsFirst inTree

theorem lettersAmong_bounds {trees : List Tree} {range : Range} {start position : Nat}
    (wellFormed : ∀ tree ∈ trees, tree.WellFormed)
    (copies : Letter.Copies (lettersIn.among source callees marker trees range start) position) :
    start ≤ position ∧ position < start + Tree.widthOfAll trees ∧
      range.start ≤ position ∧ position < range.stop := by
  induction trees generalizing start with
  | nil => obtain ⟨_, member, _⟩ := copies; cases member
  | cons tree rest inductionHypothesis =>
      rw [Tree.widthOfAll_cons]
      rcases Letter.copies_append.mp copies with inTree | inRest
      · have bounds := lettersIn_bounds (wellFormed tree List.mem_cons_self) inTree
        omega
      · have bounds := inductionHypothesis
          (fun other member => wellFormed other (List.mem_cons_of_mem tree member)) inRest
        omega

/-- A marked call that does not reach over a position in a place does not drop the place. -/
theorem drops_apart {marked : MarkedCall} {place : Place} {position : Nat}
    (low : place.start ≤ position) (high : position < place.stop)
    (apart : marked.call.stop ≤ position ∨ position < marked.call.start) :
    (⟨marked.call.range, keptRange marked⟩ : Unwrapped).drops place.range = false := by
  have outside : marked.call.range.contains place.range = false := by
    have callStart : marked.call.range.start = marked.call.start := rfl
    have callStop : marked.call.range.stop = marked.call.stop := rfl
    have placeStart : place.range.start = place.start := rfl
    have placeStop : place.range.stop = place.stop := rfl
    rw [Range.contains_eq_false_iff]
    omega
  rw [Unwrapped.drops, outside, Bool.false_and]

/-- True if no marked call among some places drops a place. -/
def Stays (callees : List Text) (marker : Text) (places : List Place) (place : Place) : Prop :=
  ∀ marked ∈ places.filterMap (MarkedCall.ofPlace? callees marker),
    (⟨marked.call.range, keptRange marked⟩ : Unwrapped).drops place.range = false

theorem stays_append {first second : List Place} {place : Place} :
    Stays callees marker (first ++ second) place ↔
      Stays callees marker first place ∧ Stays callees marker second place := by
  rw [Stays, List.filterMap_append, List.forall_mem_append]
  rfl

/-- No call drops a place if the call lies elsewhere. -/
theorem stays_apart {places : List Place} {place : Place} {position : Nat}
    (low : place.start ≤ position) (high : position < place.stop)
    (apart : ∀ other ∈ places, other.stop ≤ position ∨ position < other.start) :
    Stays callees marker places place := by
  intro marked member
  obtain ⟨other, among, found⟩ := List.mem_filterMap.mp member
  refine drops_apart low high ?_
  rw [(MarkedCall.ofPlace?_eq_some found).1]
  exact apart other among

/-- A call that is not marked drops nothing. -/
theorem stays_unmarked {role : Option Role} {kind : Kind} {children : List Tree} {above : List Frame}
    {start : Nat} {place : Place}
    (unmarked : MarkedCall.ofPlace? callees marker ⟨.node role kind children, [], start⟩ = none) :
    Stays callees marker (Place.parentsFirst (.node role kind children) above start) place ↔
      Stays callees marker (Place.parentsFirst.amongChildren role kind above [] start children)
        place := by
  have own := MarkedCall.ofPlace?_lift callees marker (.node role kind children) above start
  rw [unmarked, Option.map_none] at own
  rw [Stays, Stays, Place.parentsFirst, List.filterMap_cons_none own]

/-- A marked call drops what lies in it but not in what it keeps. -/
theorem stays_marked {role : Option Role} {kind : Kind} {children : List Tree} {above : List Frame}
    {start : Nat} {marked : MarkedCall} {place : Place}
    (found : MarkedCall.ofPlace? callees marker ⟨.node role kind children, [], start⟩ = some marked)
    (low : start ≤ place.start)
    (high : place.stop ≤ start + (Script.Tree.node role kind children).width) :
    Stays callees marker (Place.parentsFirst (.node role kind children) above start) place ↔
      (keptRange marked).contains place.range = true ∧ Stays callees marker
        (Place.parentsFirst.amongChildren role kind above [] start children) place := by
  have own := MarkedCall.ofPlace?_lift callees marker (.node role kind children) above start
  rw [found, Option.map_some] at own
  have inCall : marked.call.range.contains place.range = true := by
    rw [range_of_marked found, Range.contains_iff]
    exact ⟨low, high⟩
  have same : (⟨(marked.lift above).call.range, keptRange (marked.lift above)⟩ : Unwrapped) =
      ⟨marked.call.range, keptRange marked⟩ := rfl
  rw [Stays, Place.parentsFirst, List.filterMap_cons_some own, List.forall_mem_cons, same,
    Unwrapped.drops, inCall, Bool.true_and, Bool.not_eq_false']
  rfl

/-- Whether a reference among neighbouring trees is copied depends on its own tree. -/
theorem copiesAmong_iff_of {role : Option Role} {kind : Kind} {above : List Frame}
    {trees left : List Tree} {range : Range} {start position : Nat} {place : Place}
    (each : ∀ tree ∈ trees, ∀ (above : List Frame) (start : Nat),
      (∀ edit ∈ pending source callees marker tree start,
        range.contains edit.range = true ∨ edit.range.stop ≤ range.start ∨
          range.stop ≤ edit.range.start) →
      place ∈ Place.parentsFirst tree above start →
      (Letter.Copies (lettersIn source callees marker tree range start) position ↔
        Stays callees marker (Place.parentsFirst tree above start) place))
    (wellFormed : ∀ tree ∈ trees, tree.WellFormed)
    (clean : ∀ edit ∈ pending.among source callees marker trees start,
      range.contains edit.range = true ∨ edit.range.stop ≤ range.start ∨
        range.stop ≤ edit.range.start)
    (member : place ∈ Place.parentsFirst.amongChildren role kind above left start trees)
    (low : place.start ≤ position) (high : position < place.stop) :
    Letter.Copies (lettersIn.among source callees marker trees range start) position ↔
      Stays callees marker (Place.parentsFirst.amongChildren role kind above left start trees)
        place := by
  induction trees generalizing left start with
  | nil => cases member
  | cons tree rest inductionHypothesis =>
      have cleanTree := fun edit edits => clean edit (List.mem_append_left _ edits)
      have cleanRest := fun edit edits => clean edit (List.mem_append_right _ edits)
      have treeWellFormed := wellFormed tree List.mem_cons_self
      have restWellFormed := fun other member => wellFormed other (List.mem_cons_of_mem tree member)
      rw [Place.parentsFirst.amongChildren, stays_append, lettersIn.among, Letter.copies_append]
      rcases List.mem_append.mp member with inTree | inRest
      · have within := Place.range_of_parentsFirst inTree
        have notInRest : ¬ Letter.Copies
            (lettersIn.among source callees marker rest range (start + tree.width)) position := by
          intro copies
          have bounds := lettersAmong_bounds restWellFormed copies
          omega
        have others : Stays callees marker (Place.parentsFirst.amongChildren role kind above
            (tree :: left) (start + tree.width) rest) place := by
          refine stays_apart low high fun other among => ?_
          have bounds := Place.range_of_amongChildren among
          omega
        rw [each tree List.mem_cons_self _ start cleanTree inTree]
        simp only [notInRest, or_false, others, and_true]
      · have within := Place.range_of_amongChildren inRest
        have notInTree : ¬ Letter.Copies
            (lettersIn source callees marker tree range start) position := by
          intro copies
          have bounds := lettersIn_bounds treeWellFormed copies
          omega
        have others : Stays callees marker
            (Place.parentsFirst tree (⟨role, kind, left, rest⟩ :: above) start) place := by
          refine stays_apart low high fun other among => ?_
          have bounds := Place.range_of_parentsFirst among
          omega
        rw [inductionHypothesis
          (fun other member => each other (List.mem_cons_of_mem tree member)) restWellFormed
          cleanRest inRest]
        simp only [notInTree, false_or, others, true_and]

/-- A reference is copied exactly if no marked call drops it. -/
theorem copies_iff {tree : Tree} {above : List Frame} {range : Range} {start position : Nat}
    {place : Place} (wellFormed : tree.WellFormed)
    (clean : ∀ edit ∈ pending source callees marker tree start,
      range.contains edit.range = true ∨ edit.range.stop ≤ range.start ∨
        range.stop ≤ edit.range.start)
    (reference : isReferenceKind place.kind = true)
    (member : place ∈ Place.parentsFirst tree above start)
    (low : place.start ≤ position) (high : position < place.stop)
    (after : range.start ≤ position) (before : position < range.stop) :
    Letter.Copies (lettersIn source callees marker tree range start) position ↔
      Stays callees marker (Place.parentsFirst tree above start) place := by
  induction tree using Tree.childInduction generalizing above range start with
  | leaf role kind letters =>
      have unmarked := MarkedCall.ofPlace?_leaf callees marker role kind letters above start
      rw [Place.parentsFirst, List.mem_singleton] at member
      subst member
      have begins : Place.start ⟨.leaf role kind letters, above, start⟩ = start := rfl
      have ends : Place.stop ⟨.leaf role kind letters, above, start⟩ = start + letters.length := rfl
      rw [Place.parentsFirst, Stays, List.filterMap_cons_none unmarked, List.filterMap_nil,
        lettersIn, Letter.copies_copied, Text.slice, List.length_take, List.length_drop]
      refine iff_of_true ?_ (fun marked none => by cases none)
      omega
  | node role kind children childHypothesis =>
      have inChildren := reference_in_children wellFormed reference member
      have among : ∀ range : Range, range.start ≤ position → position < range.stop →
          (∀ edit ∈ pending.among source callees marker children start,
            range.contains edit.range = true ∨ edit.range.stop ≤ range.start ∨
              range.stop ≤ edit.range.start) →
          (Letter.Copies (lettersIn.among source callees marker children range start) position ↔
            Stays callees marker
              (Place.parentsFirst.amongChildren role kind above [] start children) place) :=
        fun range after before clean => copiesAmong_iff_of
          (fun child isChild above start clean inChild => childHypothesis child isChild
            (wellFormed.children child isChild) clean inChild after before)
          wellFormed.children clean inChildren low high
      cases found : MarkedCall.ofPlace? callees marker ⟨.node role kind children, [], start⟩ with
      | none =>
          rw [pending_unmarked found] at clean
          rw [lettersIn_unmarked found, among range after before clean, stays_unmarked found]
      | some marked =>
          have within := Place.range_of_parentsFirst member
          have rangeStart : place.range.start = place.start := rfl
          have rangeStop : place.range.stop = place.stop := rfl
          have contained : range.contains marked.call.range = true := by
            rw [pending_marked found] at clean
            have apart := clean _ (List.mem_singleton_self _)
            simp only [range_of_marked found] at apart ⊢
            refine apart.resolve_right ?_
            omega
          have notInTrail := trail_reference source wellFormed found reference
            inChildren low high
          rw [stays_marked found within.1 within.2, lettersIn_marked found contained]
          simp only [Letter.copies_append, Letter.copies_written, notInTrail, false_or, or_false]
          rcases keptRange_reference wellFormed found reference inChildren with kept | apart
          · have bounds := kept
            rw [Range.contains_iff] at bounds
            rw [among _ (by omega) (by omega) (keptRange_clean source wellFormed found).2.2.2]
            simp only [kept, true_and]
          · have dropped : (keptRange marked).contains place.range = false := by
              rw [Range.contains_eq_false_iff]
              omega
            simp only [dropped, Bool.false_eq_true, false_and, iff_false]
            intro copies
            have bounds := lettersAmong_bounds wellFormed.children copies
            omega

/-- True if a place lies in a marked call of a script outside of what the call keeps. -/
def Dropped (callees : List Text) (marker : Text) (tree : Tree) (place : Place) : Prop :=
  ∃ marked ∈ markedCalls callees marker tree,
    marked.call.range.contains place.range = true ∧ (keptRange marked).contains place.range = false

/-- A use of the default import of a declaration: the name or a shorthand property that stands for it,
outside of the declaration. -/
structure IsUse (tree : Tree) (binding : ImportBinding) (place : Place) : Prop where
  inTree : place ∈ Place.preorder tree
  reference : isReferenceKind place.kind = true
  named : binding.defaultLocal = some place.text
  outside : binding.statement.range.contains place.range = false

/-- The letters that removal leaves of a script, which may be those in front of a line and those behind
it. -/
def lettersLeft (source : Text) (callees : List Text) (marker : Text) (tree : Tree) :
    Option Range → List Letter
  | none => lettersIn source callees marker tree ⟨0, source.length⟩ 0
  | some line => lettersIn source callees marker tree ⟨0, line.start⟩ 0 ++
      lettersIn source callees marker tree ⟨line.stop, source.length⟩ 0

theorem dropped_iff {tree : Tree} {place : Place} :
    Dropped callees marker tree place ↔
      ¬ Stays callees marker (Place.parentsFirst tree [] 0) place := by
  have among : ∀ marked, marked ∈ markedCalls callees marker tree ↔
      marked ∈ (Place.parentsFirst tree [] 0).filterMap (MarkedCall.ofPlace? callees marker) := by
    intro marked
    simp only [markedCalls, Place.postorder_eq, List.mem_filterMap, Place.mem_parentsFirst_iff]
  simp only [Dropped, Stays, among, Unwrapped.drops, Classical.not_forall, Bool.not_eq_false,
    Bool.and_eq_true, Bool.not_eq_true', exists_prop]

/-- The code's test for a use that is left agrees with what the unwrapped calls drop. -/
theorem isReferenced_eq_false_iff (source : Text) (callees : List Text) (marker : Text) (tree : Tree)
    {binding : ImportBinding} {name : Text}
    (named : binding.defaultLocal = some name) :
    isReferenced tree name binding.statement.range
        (unwrapAll source (markedCalls callees marker tree)).unwrapped = false ↔
      ∀ place, IsUse tree binding place → Dropped callees marker tree place := by
  have drops : ∀ place : Place,
      (unwrapAll source (markedCalls callees marker tree)).unwrapped.any (·.drops place.range) =
        true ↔ Dropped callees marker tree place := by
    intro place
    rw [unwrapAll, foldl_unwrap_unwrapped, List.nil_append, List.any_map, List.any_eq_true]
    simp only [Dropped, Function.comp_apply, Unwrapped.drops, Bool.and_eq_true, Bool.not_eq_true']
  rw [isReferenced, List.any_eq_false]
  constructor
  · intro unused place use
    have sameName : place.text = name := Option.some.inj (use.named.symm.trans named)
    have notUsed := unused place use.inTree
    rw [use.reference, use.outside, decide_eq_true sameName] at notUsed
    rw [← drops]
    simpa using notUsed
  · intro dropped place inTree used
    simp only [Bool.and_eq_true, Bool.not_eq_true', decide_eq_true_eq] at used
    obtain ⟨⟨⟨reference, sameName⟩, outside⟩, left⟩ := used
    have isDropped := dropped place ⟨inTree, reference, by rw [named, sameName], outside⟩
    rw [← drops place, left] at isDropped
    cases isDropped

/-- If removal unwraps anything, it deletes the import exactly if that binds nothing but a default import
none of whose uses is left. -/
theorem removeTree_importRemoved_iff (source : Text) (tree : Tree) (directory : Path)
    (instrumentation : Instrumentation) {binding : Option ImportBinding} {callees : List Text}
    (bound : findBinding? tree directory instrumentation.modulePath = binding)
    (named : (instrumentation.localNames binding).2 = callees)
    (marks : markedCalls callees instrumentation.marker tree ≠ []) :
    (removeTree source tree directory instrumentation).importRemoved = true ↔
      ∃ found, binding = some found ∧ found.isSoleDefault = true ∧
        ∀ place, IsUse tree found place →
          Dropped callees instrumentation.marker tree place := by
  have notNone : ¬ (markedCalls callees instrumentation.marker tree).isEmpty = true := by
    rwa [List.isEmpty_iff]
  simp only [removeTree, bound, named, if_neg notNone]
  cases binding with
  | none => simp
  | some found =>
      by_cases sole : found.isSoleDefault = true
      · have isDefault : found.defaultLocal.isSome = true := by
          rw [ImportBinding.isSoleDefault, Bool.and_eq_true] at sole
          exact sole.2
        obtain ⟨name, isName⟩ := Option.isSome_iff_exists.mp isDefault
        have unused := isReferenced_eq_false_iff source callees instrumentation.marker tree isName
        simp only [Option.filter_some, sole, if_true, Option.bind_some, isName, Option.getD_some,
          Option.any_some, Option.some.injEq, exists_eq_left', true_and, ← unused]
        split
        next used => simp [used]
        next notUsed => simp [notUsed]
      · simp only [Bool.not_eq_true] at sole
        simp [Option.filter, sole]

/-- Every letter that is left stands in the source where it is copied from. -/
theorem lettersLeft_source {tree : Tree} (same : tree.text = source) (line : Option Range)
    {letter : Letter} {position : Nat}
    (member : letter ∈ lettersLeft source callees marker tree line)
    (origin : letter.origin = some position) : source[position]? = some letter.char := by
  have stands : Text.StandsAt source 0 tree.text := by
    rw [same]
    exact .whole source
  cases line with
  | none => exact lettersIn_source stands member origin
  | some line =>
      rcases List.mem_append.mp member with inFront | isBehind
      · exact lettersIn_source stands inFront origin
      · exact lettersIn_source stands isBehind origin

/-- A use in a whole unwrapped script is copied exactly if no call drops it. -/
theorem copies_whole_iff {tree : Tree} {place : Place} {position : Nat}
    (wellFormed : tree.WellFormed) (same : tree.text = source)
    (member : place ∈ Place.preorder tree) (reference : isReferenceKind place.kind = true)
    (low : place.start ≤ position) (high : position < place.stop) :
    Letter.Copies (lettersLeft source callees marker tree none) position ↔
      ¬ Dropped callees marker tree place := by
  rw [Place.preorder_eq] at member
  have bounds := Place.range_of_parentsFirst member
  rw [Tree.width_eq, same] at bounds
  rw [lettersLeft, copies_iff wellFormed (fun edit edits => .inl (pending_inside same edit edits))
    reference member low high (Nat.zero_le position) (by simp only; omega), dropped_iff,
    Classical.not_not]

/-- A use that a call drops is not copied from either side of a deleted line either. -/
theorem Around.not_copies_of_dropped (around : Around) {place : Place} {position : Nat}
    (member : place ∈ Place.preorder around.tree) (reference : isReferenceKind place.kind = true)
    (low : place.start ≤ position) (high : position < place.stop)
    (dropped : Dropped callees marker around.tree place) :
    ¬ Letter.Copies (lettersLeft around.text callees marker around.tree (some around.line))
      position := by
  rw [Place.preorder_eq] at member
  rw [dropped_iff] at dropped
  have wellFormed : around.tree.WellFormed := around.wellFormed
  have part : ∀ range : Range,
      (∀ edit ∈ pending around.text callees marker around.tree 0,
        range.contains edit.range = true ∨ edit.range.stop ≤ range.start ∨
          range.stop ≤ edit.range.start) →
      ¬ Letter.Copies (lettersIn around.text callees marker around.tree range 0) position := by
    intro range clean copies
    have bounds := lettersIn_bounds wellFormed copies
    rw [copies_iff wellFormed clean reference member low high bounds.2.2.1 bounds.2.2.2] at copies
    exact dropped copies
  rw [lettersLeft, Letter.copies_append, not_or]
  refine ⟨part _ fun edit edits => ?_, part _ fun edit edits => ?_⟩
  · have ends := (around.clean edit edits).1
    simp only [Range.contains_iff]
    omega
  · have ends := (around.clean edit edits).2
    have within := pending_inside around.text_tree edit edits
    simp only [Range.contains_iff] at within ⊢
    omega

/-- Nothing is copied from a deleted line. -/
theorem Around.not_copies_of_line (around : Around) {position : Nat}
    (inLine : around.line.start ≤ position ∧ position < around.line.stop) :
    ¬ Letter.Copies (lettersLeft around.text callees marker around.tree (some around.line))
      position := by
  have wellFormed : around.tree.WellFormed := around.wellFormed
  rw [lettersLeft, Letter.copies_append, not_or]
  refine ⟨fun copies => ?_, fun copies => ?_⟩
  · have bounds := (lettersIn_bounds wellFormed copies).2.2.2
    exact absurd inLine.1 (Nat.not_le.mpr bounds)
  · have bounds := (lettersIn_bounds wellFormed copies).2.2.1
    exact absurd inLine.2 (Nat.not_lt.mpr bounds)

/-- Where every use is dropped, the name of the entry point is copied from nowhere: it stands in a use, or in the
declaration, which goes with its line. -/
theorem Around.not_copies_of_unused (around : Around) {binding : ImportBinding} {place : Place}
    {position : Nat} (isStatement : around.statement = binding.statement.range)
    (unused : ∀ place, IsUse around.tree binding place → Dropped callees marker around.tree place)
    (member : place ∈ Place.preorder around.tree) (reference : isReferenceKind place.kind = true)
    (named : binding.defaultLocal = some place.text)
    (low : place.start ≤ position) (high : position < place.stop) :
    ¬ Letter.Copies (lettersLeft around.text callees marker around.tree (some around.line))
      position := by
  by_cases outside : binding.statement.range.contains place.range = false
  · exact around.not_copies_of_dropped member reference low high
      (unused place ⟨member, reference, named, outside⟩)
  · rw [Bool.not_eq_false, ← isStatement, Range.contains_iff] at outside
    have placeStart : place.range.start = place.start := rfl
    have placeStop : place.range.stop = place.stop := rfl
    obtain ⟨before, behind, _⟩ := around.line_spec
    exact around.not_copies_of_line ⟨by omega, by omega⟩

/-- Removal deletes the import of the entry point exactly if the import binds nothing else and every use
of its name lies in what the unwrapped calls drop. A use is copied into what is left exactly if it does
not lie there, and after the deletion nothing that is left uses the name. -/
theorem remove_deletes_import_iff (workingDirectory file : Path) (instrumentation : Instrumentation)
    {tree : Tree} (parsed : parse? source = some tree) :
    let binding := findBinding? tree (directoryOf workingDirectory file) instrumentation.modulePath
    let callees := (instrumentation.localNames binding).2
    ∃ outcome, remove? workingDirectory source file instrumentation = some outcome ∧
      (0 < outcome.rewritten → (outcome.importRemoved = true ↔
        ∃ found, binding = some found ∧ found.isSoleDefault = true ∧
          ∀ place, IsUse tree found place →
            Dropped callees instrumentation.marker tree place)) ∧
      let line := binding.map fun found => lineRange source found.statement.range
      let letters := lettersLeft source callees instrumentation.marker tree
        (if outcome.importRemoved then line else none)
      letters.map Letter.char = outcome.textOr source ∧
        (∀ letter ∈ letters, ∀ position, letter.origin = some position →
          source[position]? = some letter.char) ∧
        ∀ found, binding = some found →
          (∀ place, IsUse tree found place →
            ∀ position, place.start ≤ position → position < place.stop →
              (Letter.Copies letters position ↔
                ¬ Dropped callees instrumentation.marker tree place)) ∧
          (outcome.importRemoved = true → ∀ place ∈ Place.preorder tree,
            isReferenceKind place.kind = true → found.defaultLocal = some place.text →
              ∀ position, place.start ≤ position → position < place.stop →
                ¬ Letter.Copies letters position) := by
  intro binding callees
  obtain ⟨same, wellFormed, statements, rfl⟩ := parse?_sound parsed
  let outcome := removeTree source (.node none .program statements)
    (directoryOf workingDirectory file) instrumentation
  have rewritten : outcome.rewritten =
      (markedCalls callees instrumentation.marker (.node none .program statements)).length := by
    rw [length_markedCalls]
    exact removeTree_rewritten source _ _ instrumentation
  have removes : 0 < outcome.rewritten → (outcome.importRemoved = true ↔
      ∃ found, binding = some found ∧ found.isSoleDefault = true ∧
        ∀ place, IsUse (.node none .program statements) found place →
          Dropped callees instrumentation.marker (.node none .program statements) place) := by
    intro some
    rw [rewritten, List.length_pos_iff] at some
    exact removeTree_importRemoved_iff source _ _ instrumentation rfl rfl some
  refine ⟨outcome, ?_, removes, ?_⟩
  · rw [remove?, removeBy?, parsed, Option.map_some]
  intro line letters
  have text := removeTree_text (directoryOf workingDirectory file) instrumentation wellFormed same
    rfl rfl (fun _ => rfl) (rfl : _ = outcome)
  have truthful : ∀ letter ∈ letters, ∀ position, letter.origin = some position →
      source[position]? = some letter.char := fun letter member position origin =>
    lettersLeft_source same _ member origin
  cases removed : outcome.importRemoved with
  | false =>
      have left : letters = lettersLeft source callees instrumentation.marker
          (.node none .program statements) none := by
        simp only [letters, removed, Bool.false_eq_true, if_false]
      refine ⟨?_, truthful, fun found bound => ⟨?_, fun deleted => absurd deleted Bool.false_ne_true⟩⟩
      · rw [left, lettersLeft, map_char_lettersIn, text.1 removed]
      · intro place use position low high
        rw [left]
        exact copies_whole_iff wellFormed same use.inTree use.reference low high
  | true =>
      obtain ⟨found, bound, spelled, _⟩ := text.2 removed
      have marks : 0 < outcome.rewritten := by
        rw [rewritten, List.length_pos_iff]
        intro nothing
        have unchanged : outcome = .unchanged := by
          simp only [outcome, removeTree]
          exact if_pos (List.isEmpty_iff.mpr nothing)
        rw [unchanged] at removed
        cases removed
      obtain ⟨sole, isSole, _, unused⟩ := (removes marks).mp removed
      obtain rfl : found = sole := Option.some.inj (bound.symm.trans isSole)
      have left : letters = lettersLeft source callees instrumentation.marker
          (.node none .program statements) (some (lineRange source found.statement.range)) := by
        simp only [letters, removed, line, binding, bound, if_true, Option.map_some]
      refine ⟨?_, truthful, fun other isBound => ?_⟩
      · rw [left, lettersLeft, List.map_append, map_char_lettersIn, map_char_lettersIn, spelled]
      · obtain rfl : found = other := Option.some.inj (bound.symm.trans isBound)
        obtain ⟨around, isTree, isStatement⟩ := exists_around wellFormed bound
        rw [← isTree] at same unused left ⊢
        obtain rfl : around.text = source := around.text_tree.symm.trans same
        rw [← isStatement] at left
        rw [left]
        refine ⟨fun place use position low high => iff_of_false ?_ (not_not_intro (unused place use)),
          fun _ place inTree reference named position low high => ?_⟩
        · exact around.not_copies_of_dropped use.inTree use.reference low high (unused place use)
        · exact around.not_copies_of_unused isStatement unused inTree reference named low high

/-- A call that also passes the entry point as an argument that unwrapping drops. -/
def selfReference : Text := "import p from './p';p('a',0,p,'m');".toList

theorem remove_deletes_import_iff_selfReference :
    ∃ tree found argument outcome, parse? selfReference = some tree ∧
      findBinding? tree (directoryOf ⟨['/']⟩ ⟨"/f".toList⟩) smallEntry.modulePath = some found ∧
      found.isSoleDefault = true ∧
      IsUse tree found argument ∧ argument.start = 28 ∧
      (∀ place, IsUse tree found place →
        Dropped [smallEntry.entryName] smallEntry.marker tree place) ∧
      remove? ⟨['/']⟩ selfReference ⟨"/f".toList⟩ smallEntry = some outcome ∧
      outcome.rewritten = 1 ∧ outcome.importRemoved = true ∧
      outcome.text = some "import('a');".toList := by
  have checked : (parse? selfReference).any (fun tree =>
      let binding := findBinding? tree (directoryOf ⟨['/']⟩ ⟨"/f".toList⟩) smallEntry.modulePath
      Decidable.decide ((smallEntry.localNames binding).2 = [smallEntry.entryName]) &&
        binding.any fun found => (Place.preorder tree).any fun place =>
          isReferenceKind place.kind && Decidable.decide (found.defaultLocal = some place.text) &&
            Decidable.decide (found.statement.range.contains place.range = false) &&
            Decidable.decide (place.start = 28)) = true := by
    decide +kernel
  have computed : remove? ⟨['/']⟩ selfReference ⟨"/f".toList⟩ smallEntry =
      some ⟨some "import('a');".toList, 1, false, true, [], none⟩ := by
    decide +kernel
  obtain ⟨tree, parsed, checked⟩ := (Option.any_eq_true _ _).mp checked
  obtain ⟨named, used⟩ := Bool.and_eq_true_iff.mp checked
  obtain ⟨outcome, removed, deletes, _⟩ :=
    remove_deletes_import_iff ⟨['/']⟩ ⟨"/f".toList⟩ smallEntry parsed
  have isOutcome := computed.symm.trans removed
  cases isOutcome
  rw [of_decide_eq_true named] at deletes
  obtain ⟨found, bound, sole, unused⟩ := (deletes (by decide)).mp rfl
  rw [bound, Option.any_some, List.any_eq_true] at used
  obtain ⟨argument, inTree, used⟩ := used
  simp only [Bool.and_eq_true, decide_eq_true_eq] at used
  obtain ⟨⟨⟨reference, named⟩, outside⟩, start⟩ := used
  exact ⟨tree, found, argument, _, parsed, bound, sole, ⟨inTree, reference, named, outside⟩, start,
    unused, computed, rfl, rfl, rfl⟩

end ImportMeter.Instrument
