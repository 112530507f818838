/-
This file runs injection and removal on offsets in bytes, with every slice of the source checked. No slice
fails, and both come to what the transforms come to.
-/
import Mathlib.Data.Nat.PSub
import ImportMeter.Proofs.Edit.Slicing
import ImportMeter.Proofs.Instrument.Line
import ImportMeter.Proofs.Instrument.Standing
import ImportMeter.Proofs.Instrument.Removal
import ImportMeter.Instrument.Inject
import ImportMeter.Instrument.Remove

namespace ImportMeter.Instrument

open Script

/-! ### The line of a statement -/

def isSpaceByte (byte : UInt8) : Bool := byte = 0x20 || byte = 0x09

/-- Where the blanks in front of an offset begin. -/
def spaceStart? (bytes : List UInt8) : Nat → Option Nat
  | 0 => some 0
  | offset + 1 => do
    let byte ← bytes[offset]?
    if isSpaceByte byte then spaceStart? bytes offset else some (offset + 1)

def beginsLine? (bytes : List UInt8) (offset : Nat) : Option Bool :=
  if offset = 0 then some true else (bytes[offset - 1]?).map fun byte => byte = 0x0a

/-- The range of a statement widened to its line, in bytes. -/
def lineRangeIn? (source : Text) (statement : Range) : Option Range := do
  let bytes := source.toBytes
  let start ← spaceStart? bytes statement.start
  let atLineStart ← beginsLine? bytes start
  let behind := (bytes.drop statement.stop).takeWhile fun byte => isSpaceByte byte || byte = 0x0d
  let stop := statement.stop + behind.length
  some ⟨if atLineStart then start else statement.start,
    if (bytes[stop]?).any fun byte => byte = 0x0a then stop + 1 else stop⟩

theorem agrees_isSpaceByte : Text.Agrees isSpaceByte isSpace :=
  (Text.agrees_letter ' ' (by decide)).or (Text.agrees_letter '\t' (by decide))

theorem agrees_newline : Text.Agrees (fun byte => byte = 0x0a) (fun letter => letter = '\n') :=
  Text.agrees_letter '\n' (by decide)

theorem agrees_blank : Text.Agrees (fun byte => isSpaceByte byte || byte = 0x0d)
    (fun letter => isSpace letter || letter = '\r') :=
  agrees_isSpaceByte.or (Text.agrees_letter '\r' (by decide))

section

variable {source : Text}

theorem spaceStart?_offsetOf {position : Nat} (inside : position ≤ source.length) :
    spaceStart? source.toBytes (source.offsetOf position) = some (source.offsetOf
      (position - ((source.take position).reverse.takeWhile isSpace).length)) := by
  induction position with
  | zero => rfl
  | succ position inductionHypothesis =>
      have found : source[position]? = some source[position] := List.getElem?_eq_getElem inside
      have size := source[position].utf8Size_pos
      have offset := Text.offsetOf_succ found
      obtain ⟨byte, isByte, same⟩ := agrees_isSpaceByte.getElem?_pred found
      obtain ⟨before, isBefore⟩ : ∃ before, source.offsetOf (position + 1) = before + 1 :=
        ⟨source.offsetOf (position + 1) - 1, by omega⟩
      have mirrored : (source.take (position + 1)).reverse =
          source[position] :: (source.take position).reverse := by
        rw [List.take_add_one, found, Option.toList_some, List.reverse_append]
        rfl
      rw [isBefore, Nat.add_sub_cancel] at isByte
      rw [mirrored, isBefore, spaceStart?, isByte, Option.bind_eq_bind, Option.bind_some, same]
      by_cases space : isSpace source[position] = true
      · have single := agrees_isSpaceByte.short _ space
        have here : before = source.offsetOf position := by omega
        rw [if_pos space, List.takeWhile_cons_of_pos space, List.length_cons, here,
          inductionHypothesis (Nat.le_of_succ_le inside), Nat.add_sub_add_right]
      · rw [if_neg space, List.takeWhile_cons_of_neg space, List.length_nil, Nat.sub_zero, isBefore]

theorem beginsLine?_offsetOf {position : Nat} (inside : position ≤ source.length) :
    beginsLine? source.toBytes (source.offsetOf position) =
      some (position = 0 || source[position - 1]? = some '\n') := by
  cases position with
  | zero => rfl
  | succ position =>
      have found : source[position]? = some source[position] := List.getElem?_eq_getElem inside
      have size := source[position].utf8Size_pos
      have offset := Text.offsetOf_succ found
      obtain ⟨byte, isByte, same⟩ := agrees_newline.getElem?_pred found
      rw [beginsLine?, if_neg (by omega), isByte, Option.map_some, same, Nat.add_sub_cancel, found]
      simp

/-- The line of a statement is found by bytes where it is found by characters. -/
theorem lineRangeIn?_inBytes {statement : Range} (lies : statement.LiesIn source) :
    lineRangeIn? source (statement.inBytes source) = some ((lineRange source statement).inBytes source) := by
  have startInside := Nat.le_trans lies.proper lies.inside
  have start := spaceStart?_offsetOf startInside
  have beginsLine := beginsLine?_offsetOf (Nat.le_trans
    (Nat.sub_le statement.start ((source.take statement.start).reverse.takeWhile isSpace).length) startInside)
  have behind := agrees_blank.takeWhile_length (source.drop statement.stop)
  rw [← Text.drop_toBytes] at behind
  have run (index : Nat) (letter : Char) (low : statement.stop ≤ index) (high : index < statement.stop +
      ((source.drop statement.stop).takeWhile fun letter => isSpace letter || letter = '\r').length)
      (found : source[index]? = some letter) : letter.utf8Size = 1 :=
    agrees_blank.short letter (run_behind source _ low high found)
  have room := (List.takeWhile_sublist (l := source.drop statement.stop)
    fun letter => isSpace letter || letter = '\r').length_le
  rw [List.length_drop] at room
  have inside := lies.inside
  have stop := Text.offsetOf_add run (by omega)
  simp only [lineRangeIn?, lineRange, Range.inBytes, start, Option.bind_eq_bind, Option.bind_some,
    beginsLine, behind, ← stop, agrees_newline.getElem?_any]
  generalize statement.stop +
    ((source.drop statement.stop).takeWhile fun letter => isSpace letter || letter = '\r').length = last
  congr 2
  · exact (apply_ite _ _ _ _).symm
  · cases found : source[last]? with
    | none => rfl
    | some letter =>
        by_cases newline : letter = '\n'
        · subst newline
          exact (Text.offsetOf_succ found).symm
        · simp [newline]

end

/-! ### Injection -/

/-- The marked call in the place of an import, with what stands between the parentheses cut out of the
source. -/
def markedCallIn? (source localName marker : Text) (dynamicImport : DynamicImport) (path : Place) :
    Option Text := do
  let (front, behind) ← match dynamicImport.arguments with
    | some list => do
      let last ← (list.bytes source).stop.ppred
      let front ← source.sliceAt? ((list.bytes source).start + 1) (path.bytes source).stop
      let behind ← source.sliceAt? (path.bytes source).stop last
      some (front, behind)
    | none => (path.textIn? source).map fun text => (text, [])
  some (localName ++ '(' :: front ++ ", import.meta.url, null, '".toList ++ marker ++
    '\x27' :: behind ++ [')'])

def skipIn? (source : Text) (dynamicImport : DynamicImport) (reason : String) : Option Decision := do
  let text ← dynamicImport.call.textIn? source
  let (line, column) := lineAndColumn source dynamicImport.call.start
  some (.skipped ⟨line, column,
    "Skipping dynamic import: ".toList ++ reason.toList ++ ". Source: ".toList ++ text⟩)

/-- Decides on one dynamic import; the edit is in bytes. -/
def decideIn? (source localName marker : Text) (guards : List Text) (dynamicImport : DynamicImport) :
    Option Decision := do
  if ← isArgumentOfCallIn? source dynamicImport.outer guards then
    (dynamicImport.call.textIn? source).map fun _ => .guarded
  else match dynamicImport.source with
    | none => skipIn? source dynamicImport "source is not a string literal (type: undefined)"
    | some path =>
      let value ← stringValueIn? source path
      if value.isNone then
        skipIn? source dynamicImport
          ("source is not a string literal (type: " ++ path.kind.name ++ ")")
      else if dynamicImport.argumentCount > 1 then
        skipIn? source dynamicImport
          (toString dynamicImport.argumentCount ++ " arguments passed to import()")
      else
        (markedCallIn? source localName marker dynamicImport path).map fun text =>
          .rewritten ⟨dynamicImport.call.bytes source, text⟩

/-- The same decision with the edit in bytes. -/
def Decision.inBytes (source : Text) : Decision → Decision
  | .rewritten edit => .rewritten (edit.inBytes source)
  | decision => decision

/-- Adds instrumentation to a script whose tree is known, on bytes. -/
def injectTreeIn? (source : Text) (tree : Tree) (directory : Path) (instrumentation : Instrumentation) :
    Option Outcome := do
  let binding ← findBindingIn? source tree directory instrumentation.modulePath
  let (localName, guards) := instrumentation.localNames binding
  let declaration := match binding with
    | some _ => []
    | none => [(insertDeclaration source tree (importDeclaration instrumentation directory)).inBytes source]
  let decisions ← (dynamicImports tree).mapM (decideIn? source localName instrumentation.marker guards)
  let edits := decisions.filterMap Decision.edit?
  let text ← if edits.isEmpty && declaration.isEmpty then some none
    else (Edit.applyAllIn? source (declaration ++ edits)).map some
  some ⟨text, edits.length, !declaration.isEmpty, false, decisions.filterMap Decision.diagnostic?, none⟩

/-! ### Removal -/

/-- The same calls with their ranges in bytes. -/
def Unwrapped.inBytes (source : Text) (unwrapped : Unwrapped) : Unwrapped :=
  ⟨unwrapped.call.inBytes source, unwrapped.kept.inBytes source⟩

def Unwrapping.inBytes (source : Text) (unwrapping : Unwrapping) : Unwrapping :=
  ⟨unwrapping.edits.map (Edit.inBytes source), unwrapping.unwrapped.map (Unwrapped.inBytes source)⟩

/-- What stands between the marker and the closing parenthesis, cut out of the source. -/
def trailIn? (source : Text) (marked : MarkedCall) : Option Text :=
  if marked.argumentCount = 4 then
    (marked.arguments.bytes source).stop.ppred.bind (source.sliceAt? (marked.marker.bytes source).stop)
  else some []

/-- Unwraps one more call on bytes, the calls inside it having been unwrapped before. -/
def unwrapCallIn? (source : Text) (before : Unwrapping) (marked : MarkedCall) : Option Unwrapping := do
  let call := marked.call.bytes source
  let kept : Range := ⟨(marked.arguments.bytes source).start + 1, (marked.modulePath.bytes source).stop⟩
  let trail ← trailIn? source marked
  let path ← Edit.spliceIn? source kept before.edits
  let text := "import(".toList ++ path ++ trail ++ [')']
  some ⟨(before.edits.filter fun edit => !call.contains edit.range) ++ [⟨call, text⟩],
    before.unwrapped ++ [⟨call, kept⟩]⟩

def isReferencedIn? (source : Text) (tree : Tree) (name : Text) (declaration : Range)
    (unwrapped : List Unwrapped) : Option Bool :=
  (Place.preorder tree).anyM fun place =>
    if isReferenceKind place.kind then
      (place.textIn? source).map fun text => text = name &&
        !declaration.contains (place.bytes source) && !unwrapped.any (·.drops (place.bytes source))
    else some false

/-- True if the name of a declaration is still used. -/
def isKeptIn? (source : Text) (tree : Tree) (name : Text) (unwrapped : List Unwrapped) :
    Option ImportBinding → Option Bool
  | some binding => isReferencedIn? source tree name (binding.statement.bytes source) unwrapped
  | none => some false

/-- The edit that deletes the line of a declaration. -/
def deletionIn? (source : Text) (kept : Bool) (sole : Option ImportBinding) : Option (List Edit) :=
  if kept then some []
  else sole.toList.mapM fun binding =>
    (lineRangeIn? source (binding.statement.bytes source)).map fun line => ⟨line, []⟩

/-- Removes instrumentation from a script whose tree is known, on bytes. -/
def removeTreeIn? (source : Text) (tree : Tree) (directory : Path) (instrumentation : Instrumentation) :
    Option Outcome := do
  let binding ← findBindingIn? source tree directory instrumentation.modulePath
  let (localName, callees) := instrumentation.localNames binding
  let calls ← markedCallsIn? source callees instrumentation.marker tree
  if calls.isEmpty then some .unchanged
  else
    let unwrapping ← calls.foldlM (unwrapCallIn? source) ⟨[], []⟩
    let sole := binding.filter ImportBinding.isSoleDefault
    let name := (sole.bind (·.defaultLocal)).getD localName
    let kept ← isKeptIn? source tree name unwrapping.unwrapped sole
    let deletion ← deletionIn? source kept sole
    let text ← Edit.applyAllIn? source (unwrapping.edits ++ deletion)
    some ⟨some text, calls.length, false, !deletion.isEmpty, [], if kept then some name else none⟩

section

variable {source : Text} {tree : Tree}

theorem liesIn {place : Place} (intact : Intact source tree) (member : place ∈ Place.preorder tree) :
    place.range.LiesIn source := by
  rw [Place.preorder_eq] at member
  have bounds := Place.range_of_parentsFirst member
  have length : source.length = tree.width := by rw [Tree.width_eq, intact.text]
  refine ⟨Nat.le_add_right _ _, ?_⟩
  rw [length]
  exact Nat.le_trans bounds.2 (Nat.le_of_eq (Nat.zero_add _))

/-- Where a list of arguments and what is in it stand in the source. -/
structure Bracketed (source : Text) (list : Place) (arguments : List Place) : Prop where
  opening : source[list.start]? = some '('
  closing : ∃ last, list.stop = last + 1 ∧ source[last]? = some ')'
  between : ∀ argument ∈ arguments, list.start + 1 ≤ argument.start ∧ argument.stop + 1 ≤ list.stop

theorem bracketed {call list : Place} (intact : Intact source tree) (member : call ∈ Place.preorder tree)
    (found : argumentList? call = some list) : Bracketed source list (argumentsOf call) := by
  obtain ⟨_, isList⟩ := Option.filter_eq_some_iff.mp found
  have inTree := Intact.argumentList?_mem member found
  obtain ⟨inner, children⟩ := intact.arguments list inTree (of_decide_eq_true isList)
  have stands : Text.StandsAt source list.start list.text := by
    rw [Place.preorder_eq] at inTree
    exact Place.stands_of_parentsFirst (by rw [intact.text]; exact .whole source) inTree
  obtain ⟨own, shape⟩ : ∃ own, list.focus =
      .node own .arguments (.leaf none .mark ['('] :: inner ++ [.leaf none .mark [')']]) := by
    have isKind : list.focus.kind = .arguments := of_decide_eq_true isList
    cases focus : list.focus with
    | leaf role kind letters =>
        rw [focus] at children
        cases children
    | node own kind trees =>
        rw [focus] at children isKind
        exact ⟨own, by rw [← show kind = .arguments from isKind, ← children]; rfl⟩
  have text : list.text = '(' :: (Tree.textOfAll inner ++ [')']) := by
    rw [Place.text, shape]
    simp
  have stop : list.stop = list.start + (Tree.widthOfAll inner + 1) + 1 := by
    rw [Place.stop, shape]
    simp only [Tree.width_node, List.cons_append, Tree.widthOfAll_cons, Tree.widthOfAll_append,
      Tree.width_leaf, Tree.widthOfAll_nil, List.length_singleton]
    omega
  have opens : list.text[0]? = some '(' := by rw [text]; rfl
  have closes : list.text[Tree.widthOfAll inner + 1]? = some ')' := by
    rw [text, List.getElem?_cons_succ, Tree.widthOfAll_eq, List.getElem?_concat_length]
  refine ⟨stands.getElem? opens, ⟨_, stop, stands.getElem? closes⟩, fun argument isArgument => ?_⟩
  obtain ⟨front, behind, arguments⟩ := List.append_of_mem isArgument
  obtain ⟨before, after, rfl, -, -, -, start⟩ := argumentsOf_between found shape arguments
  rw [stop, Place.stop, start, Tree.widthOfAll_append, Tree.widthOfAll_cons]
  omega

/-- Behind the opening parenthesis is a boundary. -/
theorem Bracketed.start_inBytes {list : Place} {arguments : List Place}
    (bracketed : Bracketed source list arguments) :
    (list.bytes source).start + 1 = source.offsetOf (list.start + 1) :=
  (Text.offsetOf_succ bracketed.opening).symm

/-- So is in front of the closing parenthesis. -/
theorem Bracketed.stop_inBytes {list : Place} {arguments : List Place}
    (bracketed : Bracketed source list arguments) :
    (list.bytes source).stop.ppred = some (source.offsetOf (list.stop - 1)) := by
  obtain ⟨last, stop, closing⟩ := bracketed.closing
  have offset : (list.bytes source).stop = source.offsetOf last + 1 := by
    rw [Place.bytes, Range.inBytes, Place.range, stop]
    exact Text.offsetOf_succ closing
  rw [offset, stop]
  rfl

/-- The marked call is put together from slices. -/
theorem markedCallIn?_eq {call path : Place} {localName marker : Text} {dynamicImport : DynamicImport}
    (intact : Intact source tree) (member : call ∈ Place.preorder tree)
    (found : DynamicImport.ofPlace? call = some dynamicImport)
    (isPath : dynamicImport.source = some path) :
    markedCallIn? source localName marker dynamicImport path =
      some (markedCall source localName marker dynamicImport path) := by
  obtain ⟨rfl, _⟩ := dynamicImport_eq_some found
  have isArgument : path ∈ argumentsOf call := List.mem_of_mem_head? isPath
  have inTree := Intact.argumentsOf_mem member isArgument
  rw [markedCallIn?, markedCall]
  cases isList : argumentList? call with
  | none => simp only [intact.textIn?_eq inTree]; rfl
  | some list =>
      have bracketed := bracketed intact member isList
      obtain ⟨low, high⟩ := bracketed.between path isArgument
      have lies := liesIn intact inTree
      have proper : path.start ≤ path.stop := lies.proper
      have stop : (path.bytes source).stop = source.offsetOf path.stop := rfl
      have front := Text.sliceAt?_offsetOf (Nat.le_trans low proper) lies.inside
      have last : list.stop - 1 ≤ source.length :=
        Nat.le_trans (Nat.sub_le _ 1) (liesIn intact (Intact.argumentList?_mem member isList)).inside
      have behind := Text.sliceAt?_offsetOf (Nat.le_sub_of_add_le high) last
      simp only [bracketed.start_inBytes, bracketed.stop_inBytes, stop, front, behind,
        Option.bind_eq_bind, Option.bind_some]

theorem skipIn?_eq {call : Place} {dynamicImport : DynamicImport} (intact : Intact source tree)
    (member : call ∈ Place.preorder tree) (found : DynamicImport.ofPlace? call = some dynamicImport)
    (reason : String) : skipIn? source dynamicImport reason = some (skip source dynamicImport reason) := by
  obtain ⟨rfl, _⟩ := dynamicImport_eq_some found
  rw [skipIn?, intact.textIn?_eq member]
  rfl

theorem outer_mem {call : Place} {dynamicImport : DynamicImport} (member : call ∈ Place.preorder tree)
    (found : DynamicImport.ofPlace? call = some dynamicImport) :
    dynamicImport.outer ∈ Place.preorder tree := by
  obtain ⟨rfl, _⟩ := dynamicImport_eq_some found
  rw [DynamicImport.outer]
  split
  next parent isParent =>
    split
    · exact Intact.parent_mem isParent member
    · exact member
  next => exact member

/-- The decision on an import fails at no slice. -/
theorem decideIn?_eq {call : Place} {localName marker : Text} {guards : List Text}
    {dynamicImport : DynamicImport} (intact : Intact source tree) (member : call ∈ Place.preorder tree)
    (found : DynamicImport.ofPlace? call = some dynamicImport) :
    decideIn? source localName marker guards dynamicImport =
      some ((decide source localName marker guards dynamicImport).inBytes source) := by
  have isCall : dynamicImport.call = call := by rw [(dynamicImport_eq_some found).1]
  have isPath {path : Place} (isSource : dynamicImport.source = some path) :
      path ∈ Place.preorder tree := by
    rw [(dynamicImport_eq_some found).1] at isSource
    exact Intact.argumentsOf_mem member (List.mem_of_mem_head? isSource)
  rw [decideIn?, decide, intact.isArgumentOfCallIn?_eq (outer_mem member found), Option.bind_eq_bind,
    Option.bind_some]
  split
  · rw [isCall, intact.textIn?_eq member]
    rfl
  cases isSource : dynamicImport.source with
  | none => exact skipIn?_eq intact member found _
  | some path =>
      dsimp only
      rw [intact.stringValueIn?_eq (isPath isSource), Option.bind_eq_bind, Option.bind_some]
      split
      · rw [skipIn?_eq intact member found]
        rfl
      split
      · rw [skipIn?_eq intact member found]
        rfl
      · rw [markedCallIn?_eq intact member found isSource]
        rfl

theorem edit?_inBytes (decisions : List Decision) :
    (decisions.map (Decision.inBytes source)).filterMap Decision.edit? =
      (decisions.filterMap Decision.edit?).map (Edit.inBytes source) := by
  rw [List.filterMap_map, List.map_filterMap]
  refine List.filterMap_congr fun decision _ => ?_
  cases decision <;> rfl

theorem diagnostic?_inBytes (decisions : List Decision) :
    (decisions.map (Decision.inBytes source)).filterMap Decision.diagnostic? =
      decisions.filterMap Decision.diagnostic? := by
  rw [List.filterMap_map]
  refine List.filterMap_congr fun decision _ => ?_
  cases decision <;> rfl

theorem top_mem (tree : Tree) : Place.top tree ∈ Place.preorder tree := by
  rw [Place.preorder_eq]
  cases tree <;> exact List.mem_cons_self

/-- The declaration is inserted within the source. -/
theorem insertDeclaration_liesIn (intact : Intact source tree) (declaration : Text) :
    (insertDeclaration source tree declaration).range.LiesIn source := by
  rw [insertDeclaration]
  split
  next start found =>
    obtain ⟨place, isFirst, rfl⟩ := Option.map_eq_some_iff.mp found
    have isChild := List.mem_of_mem_filter (List.mem_of_find?_eq_some isFirst)
    have lies := liesIn intact (Intact.child_mem isChild (top_mem tree))
    exact ⟨Nat.le_refl _, Nat.le_trans lies.proper lies.inside⟩
  next =>
    split
    · exact ⟨Nat.le_refl _, Nat.le_refl _⟩
    · exact ⟨Nat.le_refl _, Nat.le_refl _⟩

/-- An edit of an import takes the range of the call. -/
theorem decide_liesIn (intact : Intact source tree) (localName marker : Text) (guards : List Text) :
    ∀ edit ∈ ((dynamicImports tree).map (decide source localName marker guards)).filterMap Decision.edit?,
      edit.range.LiesIn source := by
  intro edit member
  obtain ⟨decision, isDecision, isEdit⟩ := List.mem_filterMap.mp member
  obtain ⟨dynamicImport, isImport, rfl⟩ := List.mem_map.mp isDecision
  obtain ⟨call, inTree, found⟩ := List.mem_filterMap.mp isImport
  have lies := liesIn intact inTree
  have isCall : dynamicImport.call = call := by rw [(dynamicImport_eq_some found).1]
  have range : edit.range = dynamicImport.call.range := by
    rw [decide] at isEdit
    split at isEdit
    · cases isEdit
    split at isEdit
    · cases isEdit
    split at isEdit
    · cases isEdit
    split at isEdit
    · cases isEdit
    · cases isEdit
      rfl
  rwa [range, isCall]

/-- Injection fails at no slice. -/
theorem injectTreeIn?_eq (intact : Intact source tree) (directory : Path)
    (instrumentation : Instrumentation) :
    injectTreeIn? source tree directory instrumentation =
      some (injectTree source tree directory instrumentation) := by
  have decisions : ∀ (localName marker : Text) (guards : List Text),
      (dynamicImports tree).mapM (decideIn? source localName marker guards) =
        some (((dynamicImports tree).map (decide source localName marker guards)).map
          (Decision.inBytes source)) := by
    intro localName marker guards
    rw [List.map_map]
    refine mapM_eq_some fun dynamicImport isImport => ?_
    obtain ⟨call, inTree, found⟩ := List.mem_filterMap.mp isImport
    exact decideIn?_eq intact inTree found
  have applied (declaration : List Edit) (lies : ∀ edit ∈ declaration, edit.range.LiesIn source)
      (localName marker : Text) (guards : List Text) :=
    Edit.applyAllIn?_inBytes (List.forall_mem_append.mpr
      ⟨lies, decide_liesIn intact localName marker guards⟩)
  simp only [injectTreeIn?, injectTree, intact.findBindingIn?_eq, Option.bind_eq_bind, Option.bind_some,
    decisions, edit?_inBytes, diagnostic?_inBytes, List.isEmpty_map, List.length_map]
  cases findBinding? tree directory instrumentation.modulePath with
  | some binding =>
      have text := applied [] (List.forall_mem_nil _)
        (instrumentation.localNames (some binding)).1 instrumentation.marker
        (instrumentation.localNames (some binding)).2
      simp only [List.nil_append] at text ⊢
      rw [text]
      split <;> rfl
  | none =>
      have text := applied [insertDeclaration source tree (importDeclaration instrumentation directory)]
        (List.forall_mem_singleton.mpr (insertDeclaration_liesIn intact _))
        (instrumentation.localNames none).1 instrumentation.marker (instrumentation.localNames none).2
      simp only [List.map_append, List.map_cons, List.map_nil] at text
      simp only [text, List.isEmpty_cons, Bool.and_false, Bool.false_eq_true, if_false]
      rfl

/-- True if all that has been unwrapped lies in the source. -/
structure Unwrapping.LiesIn (source : Text) (unwrapping : Unwrapping) : Prop where
  edits : ∀ edit ∈ unwrapping.edits, edit.range.LiesIn source
  unwrapped : ∀ unwrapped ∈ unwrapping.unwrapped,
    unwrapped.call.LiesIn source ∧ unwrapped.kept.LiesIn source

section

variable {callees : List Text} {marker : Text} {place : Place} {marked : MarkedCall} {before : Unwrapping}

theorem keptRange_liesIn (intact : Intact source tree) (member : place ∈ Place.preorder tree)
    (found : MarkedCall.ofPlace? callees marker place = some marked) :
    (keptRange marked).LiesIn source := by
  obtain ⟨_, _, isList, second, third, others, arguments, _⟩ := MarkedCall.ofPlace?_eq_some found
  have isArgument : marked.modulePath ∈ argumentsOf place := arguments ▸ List.mem_cons_self
  have lies := liesIn intact (Intact.argumentsOf_mem member isArgument)
  have low := ((bracketed intact member isList).between _ isArgument).1
  exact ⟨Nat.le_trans low lies.proper, lies.inside⟩

theorem unwrap_liesIn (intact : Intact source tree) (member : place ∈ Place.preorder tree)
    (found : MarkedCall.ofPlace? callees marker place = some marked) (lies : before.LiesIn source) :
    (unwrap source before marked).LiesIn source := by
  have call : marked.call.range.LiesIn source := by
    rw [(MarkedCall.ofPlace?_eq_some found).1]
    exact liesIn intact member
  constructor
  · intro edit isEdit
    rcases List.mem_append.mp isEdit with isBefore | isNew
    · exact lies.edits edit (List.mem_of_mem_filter isBefore)
    · rw [List.mem_singleton.mp isNew]
      exact call
  · intro unwrapped isUnwrapped
    rcases List.mem_append.mp isUnwrapped with isBefore | isNew
    · exact lies.unwrapped unwrapped isBefore
    · rw [List.mem_singleton.mp isNew]
      exact ⟨call, keptRange_liesIn intact member found⟩

/-- What stands behind the marker is a slice. -/
theorem trailIn?_eq (intact : Intact source tree) (member : place ∈ Place.preorder tree)
    (found : MarkedCall.ofPlace? callees marker place = some marked) :
    trailIn? source marked = some (trailOf source marked) := by
  obtain ⟨_, _, isList, second, third, others, arguments, _⟩ := MarkedCall.ofPlace?_eq_some found
  have isArgument : marked.marker ∈ argumentsOf place := by simp [arguments]
  have high := ((bracketed intact member isList).between _ isArgument).2
  have inside := (liesIn intact (Intact.argumentList?_mem member isList)).inside
  rw [trailIn?, trailOf]
  split
  · rw [(bracketed intact member isList).stop_inBytes]
    exact Text.sliceAt?_offsetOf (Nat.le_sub_of_add_le high) (Nat.le_trans (Nat.sub_le _ 1) inside)
  · rfl

/-- Unwrapping a call fails at no slice. -/
theorem unwrapCallIn?_eq (intact : Intact source tree) (member : place ∈ Place.preorder tree)
    (found : MarkedCall.ofPlace? callees marker place = some marked) (lies : before.LiesIn source) :
    unwrapCallIn? source (before.inBytes source) marked =
      some ((unwrap source before marked).inBytes source) := by
  obtain ⟨isCall, _, isList, _⟩ := MarkedCall.ofPlace?_eq_some found
  have call : marked.call.range.LiesIn source := isCall ▸ liesIn intact member
  have kept : (⟨(marked.arguments.bytes source).start + 1, (marked.modulePath.bytes source).stop⟩ : Range) =
      (keptRange marked).inBytes source := by
    rw [(bracketed intact member isList).start_inBytes]
    rfl
  have path := Edit.spliceIn?_inBytes (keptRange_liesIn intact member found) lies.edits
  have others : (before.edits.map (Edit.inBytes source)).filter
        (fun edit => !(marked.call.bytes source).contains edit.range) =
      (before.edits.filter fun edit => !marked.call.range.contains edit.range).map
        (Edit.inBytes source) := by
    rw [List.filter_map]
    refine congrArg _ (List.filter_congr fun edit isEdit => ?_)
    exact congrArg _ (Edit.contains_inBytes call (lies.edits edit isEdit))
  simp only [unwrapCallIn?, Unwrapping.inBytes, trailIn?_eq intact member found, kept, path, others, unwrap,
    Option.bind_eq_bind, Option.bind_some, List.map_append]
  rfl

/-- So does unwrapping many. -/
theorem unwrapAllIn?_eq (intact : Intact source tree) {calls : List MarkedCall}
    (each : ∀ marked ∈ calls, ∃ place ∈ Place.preorder tree,
      MarkedCall.ofPlace? callees marker place = some marked) (lies : before.LiesIn source) :
    calls.foldlM (unwrapCallIn? source) (before.inBytes source) =
        some ((calls.foldl (unwrap source) before).inBytes source) ∧
      (calls.foldl (unwrap source) before).LiesIn source := by
  induction calls generalizing before with
  | nil => exact ⟨rfl, lies⟩
  | cons marked calls inductionHypothesis =>
      obtain ⟨⟨place, member, found⟩, ofOthers⟩ := List.forall_mem_cons.mp each
      rw [List.foldlM_cons, unwrapCallIn?_eq intact member found lies, Option.bind_eq_bind,
        Option.bind_some, List.foldl_cons]
      exact inductionHypothesis ofOthers (unwrap_liesIn intact member found lies)

end

theorem drops_inBytes {unwrapped : Unwrapped} {range : Range} (call : unwrapped.call.LiesIn source)
    (kept : unwrapped.kept.LiesIn source) (lies : range.LiesIn source) :
    (unwrapped.inBytes source).drops (range.inBytes source) = unwrapped.drops range := by
  rw [Unwrapped.drops, Unwrapped.drops, Unwrapped.inBytes, Edit.contains_inBytes call lies,
    Edit.contains_inBytes kept lies]

/-- Tests that all come to a result find what the results say. -/
theorem anyM_eq_some {α : Type} {test? : α → Option Bool} {test : α → Bool} {items : List α}
    (each : ∀ item ∈ items, test? item = some (test item)) :
    items.anyM test? = some (items.any test) := by
  induction items with
  | nil => rfl
  | cons item items inductionHypothesis =>
      obtain ⟨ofFirst, ofOthers⟩ := List.forall_mem_cons.mp each
      rw [List.anyM, ofFirst, inductionHypothesis ofOthers, List.any_cons]
      cases test item <;> rfl

theorem isReferencedIn?_eq (intact : Intact source tree) (name : Text) {declaration : Range}
    (lies : declaration.LiesIn source) {unwrapping : Unwrapping} (unwrapped : unwrapping.LiesIn source) :
    isReferencedIn? source tree name (declaration.inBytes source) (unwrapping.inBytes source).unwrapped =
      some (isReferenced tree name declaration unwrapping.unwrapped) := by
  refine anyM_eq_some fun place member => ?_
  have inSource := liesIn intact member
  have dropped : ((unwrapping.inBytes source).unwrapped.any fun unwrapped =>
        unwrapped.drops (place.bytes source)) =
      unwrapping.unwrapped.any fun unwrapped => unwrapped.drops place.range := by
    rw [Unwrapping.inBytes, List.any_map, Bool.eq_iff_iff, List.any_eq_true, List.any_eq_true]
    refine exists_congr fun call => and_congr_right fun isCall => ?_
    obtain ⟨ofCall, ofKept⟩ := unwrapped.unwrapped call isCall
    rw [← drops_inBytes ofCall ofKept inSource]
    rfl
  rw [dropped, intact.textIn?_eq member, Place.bytes, Edit.contains_inBytes lies inSource]
  cases isReferenceKind place.kind <;> rfl

/-- The declaration that binds the entry point is a place of the script. -/
theorem statement_mem {directory target : Path} {binding : ImportBinding}
    (found : findBinding? tree directory target = some binding) :
    binding.statement ∈ Place.preorder tree := by
  obtain ⟨place, isChild, isBinding⟩ := List.mem_filterMap.mp (List.mem_of_find?_eq_some found)
  have same : binding.statement = place := by
    rw [ImportBinding.ofPlace?] at isBinding
    split at isBinding
    · obtain ⟨_, _, rfl⟩ := Option.map_eq_some_iff.mp isBinding
      rfl
    · cases isBinding
  exact same ▸ Intact.child_mem (List.mem_of_mem_filter isChild) (top_mem tree)

theorem lineRange_liesIn {statement : Range} (lies : statement.LiesIn source) :
    (lineRange source statement).LiesIn source := by
  obtain ⟨low, high, inside, _⟩ := lineRange_spec lies.inside lies.proper
  exact ⟨Nat.le_trans low (Nat.le_trans lies.proper high), inside⟩

section

variable {sole : Option ImportBinding}

theorem isKeptIn?_eq (intact : Intact source tree) (name : Text)
    (inTree : ∀ binding, sole = some binding → binding.statement ∈ Place.preorder tree)
    {unwrapping : Unwrapping} (unwrapped : unwrapping.LiesIn source) :
    isKeptIn? source tree name (unwrapping.inBytes source).unwrapped sole =
      some (sole.any fun binding => isReferenced tree name binding.statement.range unwrapping.unwrapped) := by
  cases sole with
  | none => rfl
  | some binding => exact isReferencedIn?_eq intact name (liesIn intact (inTree binding rfl)) unwrapped

/-- The edit that deletes the line of a declaration is found by bytes, and lies in the source. -/
theorem deletionIn?_eq (intact : Intact source tree) (kept : Bool)
    (inTree : ∀ binding, sole = some binding → binding.statement ∈ Place.preorder tree) :
    ∃ deletion : List Edit, deletion = (if kept then [] else sole.toList.map fun binding =>
        ⟨lineRange source binding.statement.range, []⟩) ∧
      deletionIn? source kept sole = some (deletion.map (Edit.inBytes source)) ∧
      ∀ edit ∈ deletion, edit.range.LiesIn source := by
  refine ⟨_, rfl, ?_⟩
  cases kept with
  | true => exact ⟨rfl, List.forall_mem_nil _⟩
  | false =>
      cases sole with
      | none => exact ⟨rfl, List.forall_mem_nil _⟩
      | some binding =>
          have lies := liesIn intact (inTree binding rfl)
          refine ⟨?_, List.forall_mem_singleton.mpr (lineRange_liesIn lies)⟩
          simp only [deletionIn?, Place.bytes, Option.toList_some, List.mapM_cons, List.mapM_nil,
            lineRangeIn?_inBytes lies]
          rfl

end

/-- Removal fails at no slice. -/
theorem removeTreeIn?_eq (intact : Intact source tree) (directory : Path)
    (instrumentation : Instrumentation) :
    removeTreeIn? source tree directory instrumentation =
      some (removeTree source tree directory instrumentation) := by
  have marked (callees : List Text) : ∀ marked ∈ markedCalls callees instrumentation.marker tree,
      ∃ place ∈ Place.preorder tree,
        MarkedCall.ofPlace? callees instrumentation.marker place = some marked := by
    intro marked isMarked
    obtain ⟨place, member, found⟩ := List.mem_filterMap.mp isMarked
    rw [Place.postorder_eq, ← Place.mem_parentsFirst_iff, ← Place.preorder_eq] at member
    exact ⟨place, member, found⟩
  have empty : (⟨[], []⟩ : Unwrapping).LiesIn source := ⟨List.forall_mem_nil _, List.forall_mem_nil _⟩
  simp only [removeTreeIn?, removeTree, intact.findBindingIn?_eq, intact.markedCallsIn?_eq,
    Option.bind_eq_bind, Option.bind_some]
  generalize bound : findBinding? tree directory instrumentation.modulePath = binding
  split
  · rfl
  obtain ⟨unwrapped, lies⟩ := unwrapAllIn?_eq intact (marked (instrumentation.localNames binding).2) empty
  have start : (⟨[], []⟩ : Unwrapping) = Unwrapping.inBytes source ⟨[], []⟩ := rfl
  rw [start, unwrapped, Option.bind_some]
  have inTree : ∀ sole, binding.filter ImportBinding.isSoleDefault = some sole →
      sole.statement ∈ Place.preorder tree :=
    fun sole isSole => statement_mem (bound.trans (Option.filter_eq_some_iff.mp isSole).1)
  rw [isKeptIn?_eq intact _ inTree lies, Option.bind_some, unwrapAll]
  obtain ⟨deletion, same, found, deletes⟩ := deletionIn?_eq intact _ inTree
  rw [found, ← same, Option.bind_some, Unwrapping.inBytes, ← List.map_append,
    Edit.applyAllIn?_inBytes (List.forall_mem_append.mpr ⟨lies.edits, deletes⟩), Option.bind_some,
    List.isEmpty_map]

end

/-- Every slice that injection and removal take of a script lies within it and begins and ends between
characters, and cut by bytes it is the text that the tree has there. The same holds for any tree that is
intact, for the texts and literals in it, the lines of its parts and the splices of its source. -/
theorem transform_slices (source : Text) :
    (∀ tree, parse? source = some tree → Intact source tree) ∧
      (∀ (workingDirectory file : Path) (instrumentation : Instrumentation),
        ((parse? source).bind fun tree =>
            injectTreeIn? source tree (directoryOf workingDirectory file) instrumentation) =
          inject? workingDirectory source file instrumentation ∧
        ((parse? source).bind fun tree =>
            removeTreeIn? source tree (directoryOf workingDirectory file) instrumentation) =
          remove? workingDirectory source file instrumentation) ∧
      ∀ tree, Intact source tree →
        (∀ (directory : Path) (instrumentation : Instrumentation),
          injectTreeIn? source tree directory instrumentation =
              some (injectTree source tree directory instrumentation) ∧
            removeTreeIn? source tree directory instrumentation =
              some (removeTree source tree directory instrumentation)) ∧
        (∀ place ∈ Place.preorder tree,
          place.range.LiesIn source ∧ place.textIn? source = some place.text ∧
            stringValueIn? source place = some (stringValue? place.focus) ∧
            lineRangeIn? source (place.bytes source) =
              some ((lineRange source place.range).inBytes source)) ∧
        ∀ (range : Range) (edits : List Edit), range.LiesIn source →
          (∀ edit ∈ edits, edit.range.LiesIn source) →
            Edit.spliceIn? source (range.inBytes source) (edits.map (Edit.inBytes source)) =
              some (Edit.splice source range edits) := by
  refine ⟨fun tree parsed => parse?_intact parsed, fun workingDirectory file instrumentation => ?_,
    fun tree intact => ⟨fun directory instrumentation => ?_, fun place member => ?_, ?_⟩⟩
  · rw [inject?, injectBy?, remove?, removeBy?]
    cases parsed : parse? source with
    | none => exact ⟨rfl, rfl⟩
    | some tree =>
        have intact := parse?_intact parsed
        exact ⟨injectTreeIn?_eq intact _ _, removeTreeIn?_eq intact _ _⟩
  · exact ⟨injectTreeIn?_eq intact directory instrumentation,
      removeTreeIn?_eq intact directory instrumentation⟩
  · exact ⟨liesIn intact member, intact.textIn?_eq member, intact.stringValueIn?_eq member,
      lineRangeIn?_inBytes (liesIn intact member)⟩
  · exact fun range edits ofRange ofEdits => Edit.spliceIn?_inBytes ofRange ofEdits

/-- Calls and a declaration among characters of more than one byte. -/
def accentedCalls : Text :=
  "/*ü*/ import p from './p'\nä=[import(/*é*/'ß'),p('\\xfcö', 0, 0, 'm'/*→*/)]".toList

theorem transform_slices_accentedCalls :
    ∃ tree, parse? accentedCalls = some tree ∧
      injectTreeIn? accentedCalls tree ⟨['/']⟩ smallEntry = some ⟨some ("/*ü*/ import p from './p'\n".toList ++
        "ä=[p(/*é*/'ß', import.meta.url, null, 'm'),p('\\xfcö', 0, 0, 'm'/*→*/)]".toList),
        1, false, false, [], none⟩ ∧
      removeTreeIn? accentedCalls tree ⟨['/']⟩ smallEntry = some ⟨some
        "/*ü*/ ä=[import(/*é*/'ß'),import('\\xfcö'/*→*/)]".toList, 1, false, true, [], none⟩ := by
  have reads : (parse? accentedCalls).any (fun tree =>
      Decidable.decide (injectTree accentedCalls tree ⟨['/']⟩ smallEntry =
        ⟨some ("/*ü*/ import p from './p'\n".toList ++
          "ä=[p(/*é*/'ß', import.meta.url, null, 'm'),p('\\xfcö', 0, 0, 'm'/*→*/)]".toList),
          1, false, false, [], none⟩) &&
      Decidable.decide (removeTree accentedCalls tree ⟨['/']⟩ smallEntry =
        ⟨some "/*ü*/ ä=[import(/*é*/'ß'),import('\\xfcö'/*→*/)]".toList, 1, false, true, [], none⟩)) =
      true := by
    decide +kernel
  obtain ⟨tree, parsed, checked⟩ := (Option.any_eq_true _ _).mp reads
  rw [Bool.and_eq_true, decide_eq_true_eq, decide_eq_true_eq] at checked
  obtain ⟨isIntact, _, ofIntact⟩ := transform_slices accentedCalls
  obtain ⟨injects, removes⟩ := (ofIntact tree (isIntact tree parsed)).1 ⟨['/']⟩ smallEntry
  exact ⟨tree, parsed, by rw [injects, checked.1], by rw [removes, checked.2]⟩

end ImportMeter.Instrument
