/-
This file proves where an import specifier leads that is written for a path of arbitrary bytes: back to the
path if the names that it spells are UTF-8, and elsewhere if one of them is not. On paths of text it is the
specifier that injection writes.
-/
import ImportMeter.Path.Bytes
import ImportMeter.Proofs.Path.Parent
import ImportMeter.Proofs.Text.Utf8

namespace ImportMeter

namespace Text

variable {letter separator : Char} {text piece : Text}

/-- A joined text holds nothing but its pieces and what stands between them. -/
theorem mem_joinWith {pieces : List Text} (member : letter ∈ joinWith [separator] pieces) :
    letter = separator ∨ ∃ piece ∈ pieces, letter ∈ piece := by
  induction pieces with
  | nil => cases member
  | cons first rest inductionHypothesis =>
      cases rest with
      | nil => exact .inr ⟨first, List.mem_singleton_self first, member⟩
      | cons second rest =>
          rw [joinWith_cons [separator] first (List.cons_ne_nil _ _), List.mem_append,
            List.mem_append] at member
          rcases member with (inFirst | isSeparator) | inRest
          · exact .inr ⟨first, List.mem_cons_self, inFirst⟩
          · exact .inl (List.mem_singleton.mp isSeparator)
          · exact (inductionHypothesis inRest).imp_right fun ⟨piece, inside, found⟩ =>
              ⟨piece, List.mem_cons_of_mem first inside, found⟩

/-- A joined text holds all its pieces. -/
theorem mem_joinWith_of_mem {pieces : List Text} (inside : piece ∈ pieces) (member : letter ∈ piece) :
    letter ∈ joinWith [separator] pieces := by
  induction pieces with
  | nil => cases inside
  | cons first rest inductionHypothesis =>
      cases rest with
      | nil => rwa [joinWith, ← List.mem_singleton.mp inside]
      | cons second rest =>
          rw [joinWith_cons [separator] first (List.cons_ne_nil _ _), List.append_assoc,
            List.mem_append, List.mem_append]
          rcases List.mem_cons.mp inside with rfl | inRest
          · exact .inl member
          · exact .inr (.inr (inductionHypothesis inRest))

/-- What goes through appended texts and keeps the separator goes through joined texts. -/
theorem map_joinWith {turn : Text → Text} (nothing : turn [] = [])
    (append : ∀ first second, turn (first ++ second) = turn first ++ turn second)
    (kept : turn [separator] = [separator]) (pieces : List Text) :
    turn (joinWith [separator] pieces) = joinWith [separator] (pieces.map turn) := by
  induction pieces with
  | nil => exact nothing
  | cons first rest inductionHypothesis =>
      cases rest with
      | nil => rfl
      | cons second rest =>
          rw [joinWith_cons [separator] first (List.cons_ne_nil _ _), append, append, kept,
            inductionHypothesis]
          rfl

end Text

namespace Path

theorem mem_push {component other : Component} {read : List Component}
    (member : other ∈ push read component) : other = component ∨ other ∈ read := by
  cases component with
  | current => exact .inr member
  | root => exact List.mem_cons.mp member
  | normal name => exact List.mem_cons.mp member
  | parent =>
      match read with
      | .normal _ :: _ => exact .inr (List.mem_cons_of_mem _ member)
      | .root :: _ => exact .inr member
      | [] | .parent :: _ | .current :: _ => exact List.mem_cons.mp member

/-- Folding makes up no components. -/
theorem mem_foldl_push {components read : List Component} {component : Component}
    (member : component ∈ components.foldl push read) :
    component ∈ components ∨ component ∈ read := by
  induction components generalizing read with
  | nil => exact .inr member
  | cons first rest inductionHypothesis =>
      rcases inductionHypothesis member with inRest | inRead
      · exact .inl (List.mem_cons_of_mem first inRest)
      · rcases mem_push inRead with rfl | inRead
        · exact .inl List.mem_cons_self
        · exact .inr inRead

end Path

namespace BytePath

open Path (Component)

variable {path directory : BytePath} {letters text : Text}

/-! ### Letters that stand for bytes -/

theorem toUInt8_ofUInt8 (byte : UInt8) : (Char.ofUInt8 byte).toUInt8 = byte :=
  UInt8.toNat.inj (Nat.mod_eq_of_lt byte.toNat_lt)

theorem map_toUInt8_ofUInt8 (bytes : List UInt8) :
    (bytes.map Char.ofUInt8).map Char.toUInt8 = bytes := by
  have each : ∀ byte ∈ bytes, (Char.toUInt8 ∘ Char.ofUInt8) byte = id byte :=
    fun byte _ => toUInt8_ofUInt8 byte
  rw [List.map_map, List.map_congr_left each, List.map_id]

/-- True if every letter stands for a byte. -/
def IsNarrow (letters : Text) : Prop := ∀ letter ∈ letters, letter.val.toNat < 256

theorem ofUInt8_toUInt8 {letter : Char} (narrow : letter.val.toNat < 256) :
    Char.ofUInt8 letter.toUInt8 = letter :=
  Char.ext (UInt32.toNat.inj (Nat.mod_eq_of_lt narrow))

theorem IsNarrow.map_ofUInt8_toUInt8 (narrow : IsNarrow letters) :
    (letters.map Char.toUInt8).map Char.ofUInt8 = letters := by
  have each : ∀ letter ∈ letters, (Char.ofUInt8 ∘ Char.toUInt8) letter = id letter :=
    fun letter member => ofUInt8_toUInt8 (narrow letter member)
  rw [List.map_map, List.map_congr_left each, List.map_id]

theorem isNarrow_map_ofUInt8 (bytes : List UInt8) : IsNarrow (bytes.map Char.ofUInt8) := by
  intro letter member
  obtain ⟨byte, _, rfl⟩ := List.mem_map.mp member
  exact byte.toNat_lt

theorem isNarrow_append {first second : Text} :
    IsNarrow (first ++ second) ↔ IsNarrow first ∧ IsNarrow second :=
  List.forall_mem_append

theorem view_ofView {view : Path} (narrow : IsNarrow view.letters) : (ofView view).view = view := by
  rw [BytePath.view, ofView, narrow.map_ofUInt8_toUInt8]

theorem isNarrow_join {base other : Path} (baseNarrow : IsNarrow base.letters)
    (otherNarrow : IsNarrow other.letters) : IsNarrow (base.join other).letters := by
  rw [Path.join]
  split
  · exact otherNarrow
  · split
    · exact isNarrow_append.mpr ⟨baseNarrow, otherNarrow⟩
    · refine isNarrow_append.mpr ⟨baseNarrow, List.forall_mem_cons.mpr ⟨by decide, otherNarrow⟩⟩

theorem isNarrow_of_mem_behindSlash {component : Component} (narrow : IsNarrow letters)
    (member : component ∈ Path.behindSlash letters) : IsNarrow component.letters := by
  obtain ⟨piece, inPieces, found⟩ := List.mem_filterMap.mp member
  rw [Path.componentOf?_letters found]
  intro letter inPiece
  refine narrow letter ?_
  rw [← Text.joinWith_splitOn '/' letters]
  exact Text.mem_joinWith_of_mem inPieces inPiece

theorem isNarrow_of_mem_normalComponents {view : Path} {component : Component}
    (absolute : view.isAbsolute = true) (narrow : IsNarrow view.letters)
    (member : component ∈ view.normalComponents) : IsNarrow component.letters := by
  rw [Path.normalComponents, List.mem_reverse, Path.components_of_isAbsolute absolute] at member
  rcases Path.mem_foldl_push member with isOwn | impossible
  · rcases List.mem_cons.mp isOwn with rfl | isPiece
    · exact List.forall_mem_singleton.mpr (by decide)
    · exact isNarrow_of_mem_behindSlash narrow isPiece
  · cases impossible

theorem isNarrow_normalize {view : Path} (absolute : view.isAbsolute = true)
    (narrow : IsNarrow view.letters) : IsNarrow view.normalize.letters := by
  obtain ⟨names, normal, _⟩ := Path.normalComponents_of_isAbsolute absolute
  have isSlash : ('/' : Char).val.toNat < 256 := by decide
  have letters : view.normalize.letters =
      '/' :: Text.joinWith ['/'] (names.map Component.letters) := by
    rw [Path.normalize, normal]
    rfl
  rw [letters]
  refine List.forall_mem_cons.mpr ⟨isSlash, fun letter member => ?_⟩
  rcases Text.mem_joinWith member with rfl | ⟨piece, inside, inPiece⟩
  · exact isSlash
  · obtain ⟨component, isName, rfl⟩ := List.mem_map.mp inside
    refine isNarrow_of_mem_normalComponents absolute narrow ?_ letter inPiece
    rw [normal]
    exact List.mem_cons_of_mem _ isName

/-! ### Text as bytes -/

/-- The letters that stand for the bytes of a text. -/
def widen (text : Text) : Text := text.toBytes.map Char.ofUInt8

theorem view_ofText (text : Text) : (ofText text).view = ⟨widen text⟩ := rfl

@[simp] theorem widen_append (first second : Text) :
    widen (first ++ second) = widen first ++ widen second := by
  rw [widen, Text.toBytes, List.flatMap_append, List.map_append]
  rfl

/-- Text is spelled as it is. -/
theorem spell_widen (text : Text) : spell (widen text) = text := by
  rw [spell, widen, map_toUInt8_ofUInt8, Text.ofBytesLossy_toBytes]

theorem widen_injective : Function.Injective widen := Function.LeftInverse.injective spell_widen

/-- A letter that takes a single byte stands for it. -/
theorem mem_widen_iff {letter : Char} (short : letter.val.toNat < 0x80) :
    letter ∈ widen text ↔ letter ∈ text := by
  constructor
  · intro member
    obtain ⟨byte, inBytes, rfl⟩ := List.mem_map.mp member
    obtain ⟨other, inText, inOther⟩ := List.mem_flatMap.mp inBytes
    rcases Text.toNat_of_mem_utf8EncodeChar inOther with isCode | high
    · have same : Char.ofUInt8 byte = other := Char.ext (UInt32.toNat.inj isCode)
      rwa [same]
    · exact absurd short (Nat.not_lt.mpr high)
  · intro member
    have whole : Char.ofUInt8 (UInt8.ofNat letter.val.toNat) = letter :=
      ofUInt8_toUInt8 (Nat.lt_trans short (by decide))
    rw [← whole]
    refine List.mem_map_of_mem (List.mem_flatMap.mpr ⟨letter, member, ?_⟩)
    rw [Text.utf8EncodeChar_short short]
    exact List.mem_singleton_self _

theorem widen_joinWith (pieces : List Text) :
    widen (Text.joinWith ['/'] pieces) = Text.joinWith ['/'] (pieces.map widen) :=
  Text.map_joinWith rfl widen_append rfl pieces

/-! ### Names as text -/

section

variable {name : Text}

/-- A name that is spelled without replacement characters is the text that it is spelled as. -/
theorem eq_widen_of_spell (narrow : IsNarrow name) (same : spell name = text)
    (whole : Text.replacement ∉ text) : name = widen text := by
  rw [← narrow.map_ofUInt8_toUInt8, (Text.spells_iff.mpr same).eq_toBytes whole]
  rfl

/-- Spelled as text, a name is no step and stays in one piece. -/
theorem isEntryName_spell (isName : Path.IsEntryName name) (narrow : IsNarrow name) :
    Path.IsEntryName (spell name) where
  filled empty := isName.filled (eq_widen_of_spell narrow empty List.not_mem_nil)
  notDot dot := isName.notDot (eq_widen_of_spell narrow dot (by decide))
  notDots dots := isName.notDots (eq_widen_of_spell narrow dots (by decide))
  slashless member := by
    have short : ('/' : Char).val.toNat < 0x80 := by decide
    have isByte := (Text.spells_iff.mpr (rfl : spell name = spell name)).mem_of_short short member
    have isLetter := List.mem_map_of_mem (f := Char.ofUInt8) isByte
    rw [narrow.map_ofUInt8_toUInt8] at isLetter
    exact isName.slashless isLetter

theorem isEntryName_widen (isName : Path.IsEntryName text) : Path.IsEntryName (widen text) where
  filled empty := isName.filled (widen_injective empty)
  notDot dot := isName.notDot (widen_injective dot)
  notDots dots := isName.notDots (widen_injective dots)
  slashless member := isName.slashless ((mem_widen_iff (by decide)).mp member)

/-- The text of a name gives the name back if the name is UTF-8. -/
theorem widen_spell_eq_iff (narrow : IsNarrow name) :
    widen (spell name) = name ↔ ∃ text : Text, text.toBytes = name.map Char.toUInt8 := by
  constructor
  · intro same
    refine ⟨spell name, ?_⟩
    conv_rhs => rw [← same]
    exact (map_toUInt8_ofUInt8 _).symm
  · rintro ⟨text, same⟩
    have isText : name = widen text := by
      rw [← narrow.map_ofUInt8_toUInt8, ← same]
      rfl
    rw [isText, spell_widen]

end

/-! ### Import specifiers -/

/-- In the letters for the bytes of a specifier, the names are spelled as text. -/
theorem widen_relativeBy (turn : Text → Text) (path directory : Path) :
    widen (path.relativeBy turn directory) = path.relativeBy (widen ∘ turn) directory := by
  rw [Path.relativeBy, widen_joinWith, Path.relativeBy, List.map_append, List.map_map, List.map_map]
  rfl

/-- The path that is found by the specifier, seen from the directory. -/
theorem view_join_ofText (text : Text) (directory : BytePath) :
    (directory.join (ofText text)).view = directory.view.join ⟨widen text⟩ :=
  view_ofView (isNarrow_join (isNarrow_map_ofUInt8 _) (isNarrow_map_ofUInt8 _))

/-- Paths are normalized to the same bytes if they have the same components without dots. -/
theorem normalize_eq_iff {other : BytePath} (absolute : path.isAbsolute = true)
    (otherAbsolute : other.isAbsolute = true) :
    path.normalize = other.normalize ↔ path.view.normalComponents = other.view.normalComponents := by
  constructor
  · intro same
    have whole := congrArg view same
    rw [normalize, normalize, view_ofView (isNarrow_normalize absolute (isNarrow_map_ofUInt8 _)),
      view_ofView (isNarrow_normalize otherAbsolute (isNarrow_map_ofUInt8 _))] at whole
    rw [← Path.components_normalize absolute, ← Path.components_normalize otherAbsolute, whole]
  · intro same
    rw [normalize, normalize, Path.normalize, Path.normalize, same]

/-- Names are the same as before in another spelling if each of them is. -/
theorem map_spelledBy_eq_iff {components : List Component} {turn : Text → Text}
    (areNames : ∀ component ∈ components, component.IsName) :
    components.map (Component.spelledBy turn) = components ↔
      ∀ component ∈ components, turn component.letters = component.letters := by
  have each : ∀ component ∈ components, component.spelledBy turn = component ↔
      turn component.letters = component.letters := by
    intro component member
    obtain ⟨name, rfl⟩ := (areNames component member).eq_normal
    exact ⟨Component.normal.inj, congrArg Component.normal⟩
  conv_lhs => rhs; rw [← List.map_id components]
  rw [List.map_inj_left]
  exact forall₂_congr each

theorem isNarrow_of_mem_downFrom {component : Component}
    (directoryAbsolute : directory.isAbsolute = true) (pathAbsolute : path.isAbsolute = true)
    (member : component ∈ path.view.downFrom directory.view) : IsNarrow component.letters := by
  obtain ⟨common, _, _, isPath, _⟩ := Path.exists_relativeBy id directoryAbsolute pathAbsolute
  refine isNarrow_of_mem_normalComponents pathAbsolute (isNarrow_map_ofUInt8 _) ?_
  rw [isPath]
  exact List.mem_cons_of_mem _ (List.mem_append_right _ member)

/-- An import specifier is relative to the directory that it is written for. Seen from there, it leads back
to the path if the names that lead down to it are UTF-8, and only then: all others are spelled with
replacement characters. -/
theorem importSpecifier_leads_back_iff (directoryAbsolute : directory.isAbsolute = true)
    (pathAbsolute : path.isAbsolute = true) :
    ((∃ rest, path.importSpecifier directory = ['.', '/'] ++ rest) ∨
        ∃ rest, path.importSpecifier directory = ['.', '.', '/'] ++ rest) ∧
      ((directory.join (ofText (path.importSpecifier directory))).normalize = path.normalize ↔
        ∀ name ∈ path.namesFrom directory, ∃ text : Text, text.toBytes = name) := by
  refine ⟨Path.specifierBy_begins spell path.view directory.view, ?_⟩
  have areNames : ∀ component ∈ path.view.downFrom directory.view, component.IsName :=
    fun component => Path.isName_of_mem_downFrom directoryAbsolute pathAbsolute
  have areNarrow : ∀ component ∈ path.view.downFrom directory.view, IsNarrow component.letters :=
    fun component => isNarrow_of_mem_downFrom directoryAbsolute pathAbsolute
  have spelled : ∀ component ∈ path.view.downFrom directory.view,
      (component.spelledBy (widen ∘ spell)).IsName := by
    intro component member
    obtain ⟨name, rfl⟩ := (areNames component member).eq_normal
    have isEntry := Component.isName_normal_iff.mp (areNames _ member)
    exact Component.isName_normal_iff.mpr
      (isEntryName_widen (isEntryName_spell isEntry (areNarrow _ member)))
  have begins : ∃ rest, widen (path.importSpecifier directory) = '.' :: rest := by
    obtain ⟨rest, same⟩ := Path.specifierBy_dotted spell path.view directory.view
    exact ⟨widen rest, by rw [importSpecifier, same]; rfl⟩
  have relative : widen (path.importSpecifier directory) =
        path.view.relativeBy (widen ∘ spell) directory.view ∨
      widen (path.importSpecifier directory) =
        ['.', '/'] ++ path.view.relativeBy (widen ∘ spell) directory.view := by
    rw [← widen_relativeBy, importSpecifier]
    exact (Path.specifierBy_cases spell path.view directory.view).imp (congrArg widen)
      fun same => by rw [same, widen_append]; rfl
  obtain ⟨common, isPath, joined⟩ := Path.normalComponents_join_relativeBy directoryAbsolute
    pathAbsolute begins relative spelled
  have joinedAbsolute : (directory.join (ofText (path.importSpecifier directory))).isAbsolute = true := by
    rw [isAbsolute, view_join_ofText]
    exact Path.isAbsolute_join _ directoryAbsolute
  rw [normalize_eq_iff joinedAbsolute pathAbsolute, view_join_ofText, joined, isPath,
    List.cons.injEq, List.append_cancel_left_eq, map_spelledBy_eq_iff areNames, namesFrom,
    List.forall_mem_map]
  simp only [true_and]
  exact forall₂_congr fun component member => widen_spell_eq_iff (areNarrow component member)

/-- A name that is not UTF-8 does no harm above both paths, and dots in front of names are no steps. -/
theorem importSpecifier_leads_back_iff_malformedAbove :
    let directory : BytePath := ⟨0x2f :: 0xfe :: (ofText "//..x/./b".toList).bytes⟩
    let path : BytePath := ⟨0x2f :: 0xfe :: (ofText "/..x/.../c/../..é.js".toList).bytes⟩
    directory.isAbsolute = true ∧ path.isAbsolute = true ∧
      path.importSpecifier directory = "../.../..é.js".toList ∧
      (∀ name ∈ path.namesFrom directory, ∃ text : Text, text.toBytes = name) ∧
      (directory.join (ofText (path.importSpecifier directory))).normalize = path.normalize := by
  intro directory path
  have directoryAbsolute : directory.isAbsolute = true := by decide +kernel
  have pathAbsolute : path.isAbsolute = true := by decide +kernel
  have names : path.namesFrom directory = [Text.toBytes "...".toList, Text.toBytes "..é.js".toList] := by
    decide +kernel
  have areText : ∀ name ∈ path.namesFrom directory, ∃ text : Text, text.toBytes = name := by
    rw [names, List.forall_mem_cons, List.forall_mem_singleton]
    exact ⟨⟨_, rfl⟩, ⟨_, rfl⟩⟩
  exact ⟨directoryAbsolute, pathAbsolute, by decide +kernel, areText,
    (importSpecifier_leads_back_iff directoryAbsolute pathAbsolute).2.mpr areText⟩

/-- A name that is not UTF-8 is not found again: the specifier names a file of another name. -/
theorem importSpecifier_malformedName :
    let directory : BytePath := ofText "/a".toList
    let path : BytePath := ⟨(ofText "/a/".toList).bytes ++ 0xff :: (ofText ".js".toList).bytes⟩
    directory.isAbsolute = true ∧ path.isAbsolute = true ∧
      path.importSpecifier directory = "./\ufffd.js".toList ∧
      (directory.join (ofText (path.importSpecifier directory))).normalize =
        ofText "/a/\ufffd.js".toList ∧
      (directory.join (ofText (path.importSpecifier directory))).normalize ≠ path.normalize := by
  decide +kernel

/-! ### Paths of text -/

/-- A component of the path whose letters stand for the bytes of a text. -/
def widenComponent : Component → Component
  | .normal name => .normal (widen name)
  | component => component

theorem letters_widenComponent (component : Component) :
    (widenComponent component).letters = widen component.letters := by
  cases component <;> rfl

theorem widenComponent_injective : Function.Injective widenComponent := by
  intro first second same
  cases first <;> cases second <;> simp_all [widenComponent, widen_injective.eq_iff]

theorem splitOn_widen (text : Text) :
    Text.splitOn '/' (widen text) = (Text.splitOn '/' text).map widen := by
  have some : (Text.splitOn '/' text).map widen ≠ [] := by simp [Text.splitOn_ne_nil]
  have free : ∀ piece ∈ (Text.splitOn '/' text).map widen, '/' ∉ piece := by
    intro piece member
    obtain ⟨original, inside, rfl⟩ := List.mem_map.mp member
    exact fun isSlash => Text.notMem_of_mem_splitOn inside ((mem_widen_iff (by decide)).mp isSlash)
  conv_lhs => rw [← Text.joinWith_splitOn '/' text, widen_joinWith]
  exact Text.splitOn_joinWith some free

theorem componentOf?_widen (piece : Text) :
    Path.componentOf? (widen piece) = (Path.componentOf? piece).map widenComponent := by
  have empty : widen piece = [] ↔ piece = [] := widen_injective.eq_iff (b := [])
  have dot : widen piece = ['.'] ↔ piece = ['.'] := widen_injective.eq_iff (b := ['.'])
  have dots : widen piece = ['.', '.'] ↔ piece = ['.', '.'] := widen_injective.eq_iff (b := ['.', '.'])
  simp only [Path.componentOf?, empty, dot, dots]
  split
  · rfl
  · split <;> rfl

theorem isAbsolute_widen (text : Text) : Path.isAbsolute ⟨widen text⟩ = Path.isAbsolute ⟨text⟩ := by
  cases text with
  | nil => rfl
  | cons letter rest =>
      have filled : widen [letter] ≠ [] := fun empty => List.cons_ne_nil _ _ (widen_injective empty)
      obtain ⟨first, others, begins⟩ := List.exists_cons_of_ne_nil filled
      have sameSlash : first = '/' ↔ letter = '/' := by
        constructor
        · rintro rfl
          have member : '/' ∈ widen [letter] := by rw [begins]; exact List.mem_cons_self
          exact (List.mem_singleton.mp ((mem_widen_iff (by decide)).mp member)).symm
        · rintro rfl
          exact (List.cons.inj begins).1.symm
      have whole : widen (letter :: rest) = first :: (others ++ widen rest) := by
        rw [← List.singleton_append, widen_append, begins, List.cons_append]
      simp only [Path.isAbsolute, whole, List.head?_cons, Option.some.injEq, sameSlash]

theorem components_widen (text : Text) :
    Path.components ⟨widen text⟩ = (Path.components ⟨text⟩).map widenComponent := by
  obtain ⟨first, rest, split⟩ := List.exists_cons_of_ne_nil (Text.splitOn_ne_nil '/' text)
  have dot : widen first = ['.'] ↔ first = ['.'] := widen_injective.eq_iff (b := ['.'])
  have behind : (rest.map widen).filterMap Path.componentOf? =
      (rest.filterMap Path.componentOf?).map widenComponent := by
    rw [List.filterMap_map, List.map_filterMap]
    exact List.filterMap_congr fun piece _ => componentOf?_widen piece
  have whole := splitOn_widen text
  rw [split, List.map_cons] at whole
  simp only [Path.components, split, whole, isAbsolute_widen, dot, List.map_append, behind,
    componentOf?_widen]
  split
  · rfl
  · split
    · rfl
    · cases Path.componentOf? first <;> rfl

theorem push_widenComponent (read : List Component) (component : Component) :
    Path.push (read.map widenComponent) (widenComponent component) =
      (Path.push read component).map widenComponent := by
  cases component with
  | parent =>
      cases read with
      | nil => rfl
      | cons first rest => cases first <;> rfl
  | _ => rfl

theorem foldl_push_widenComponent (components read : List Component) :
    (components.map widenComponent).foldl Path.push (read.map widenComponent) =
      (components.foldl Path.push read).map widenComponent := by
  induction components generalizing read with
  | nil => rfl
  | cons first rest inductionHypothesis =>
      rw [List.map_cons, List.foldl_cons, List.foldl_cons, push_widenComponent, inductionHypothesis]

theorem ofComponents_widen (components : List Component) :
    Path.ofComponents (components.map widenComponent) =
      ⟨widen (Path.ofComponents components).letters⟩ := by
  have joined : ∀ components : List Component,
      Text.joinWith ['/'] ((components.map widenComponent).map Component.letters) =
        widen (Text.joinWith ['/'] (components.map Component.letters)) := by
    intro components
    rw [widen_joinWith, List.map_map, List.map_map]
    exact congrArg (Text.joinWith ['/'])
      (List.map_congr_left fun component _ => letters_widenComponent component)
  cases components with
  | nil => rfl
  | cons first rest =>
      cases first with
      | root => exact congrArg (fun letters => Path.mk ('/' :: letters)) (joined rest)
      | current | parent | normal => exact congrArg Path.mk (joined (_ :: rest))

theorem normalize_widen (text : Text) :
    Path.normalize ⟨widen text⟩ = ⟨widen (Path.normalize ⟨text⟩).letters⟩ := by
  have folded := foldl_push_widenComponent (Path.components ⟨text⟩) []
  rw [Path.normalize, Path.normalComponents, components_widen, ← List.map_nil (f := widenComponent),
    folded, ← List.map_reverse, ofComponents_widen]
  rfl

theorem dropCommon_widenComponent (first second : List Component) :
    Path.dropCommon (first.map widenComponent) (second.map widenComponent) =
      ((Path.dropCommon first second).1.map widenComponent,
        (Path.dropCommon first second).2.map widenComponent) := by
  induction first generalizing second with
  | nil => rfl
  | cons head first inductionHypothesis =>
      cases second with
      | nil => rfl
      | cons other second =>
          simp only [List.map_cons, Path.dropCommon, widenComponent_injective.eq_iff]
          split
          · exact inductionHypothesis second
          · rfl

/-- A path of text is seen from a directory of text as its bytes are. -/
theorem relativeTo_ofText (path directory : Path) :
    (ofText path.letters).relativeTo (ofText directory.letters) = path.relativeTo directory := by
  have steps : ∀ components : List Component,
      (components.map widenComponent).filter
          (fun component => component ≠ .root && component ≠ .current) =
        (components.filter fun component => component ≠ .root && component ≠ .current).map
          widenComponent := by
    intro components
    rw [List.filter_map]
    congr 1
    refine List.filter_congr fun component _ => ?_
    cases component <;> rfl
  have spelled : ∀ component : Component, spell (widenComponent component).letters =
      component.letters := fun component => by rw [letters_widenComponent, spell_widen]
  rw [relativeTo, Path.relativeTo, Path.relativeBy, Path.relativeBy, Path.downFrom, Path.downFrom,
    view_ofText, view_ofText, normalize_widen, normalize_widen, components_widen, components_widen,
    dropCommon_widenComponent]
  simp only [steps, List.map_map, Function.comp_def, spelled]
  rfl

/-- For paths of text, the specifier is the one that injection writes. -/
theorem importSpecifier_ofText (path directory : Path) :
    (ofText path.letters).importSpecifier (ofText directory.letters) =
      path.importSpecifier directory := by
  have same := relativeTo_ofText path directory
  rw [relativeTo, Path.relativeTo] at same
  rw [importSpecifier, Path.importSpecifier, Path.specifierBy, Path.specifierBy, same]

end BytePath

end ImportMeter
