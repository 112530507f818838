/-
This file proves what the parents of an absolute path are. A path without dots is the path of some
names below the root, and going up takes the last of them away.
-/
import Mathlib.Data.List.Infix
import Mathlib.Data.List.TakeWhile
import ImportMeter.Proofs.Path

namespace ImportMeter

namespace Text

theorem joinWith_cons (separator first : Text) {rest : List Text} (filled : rest ≠ []) :
    joinWith separator (first :: rest) = first ++ separator ++ joinWith separator rest := by
  obtain ⟨second, others, rfl⟩ := List.exists_cons_of_ne_nil filled
  rfl

theorem joinWith_append (separator : Text) {front rest : List Text} (filled : front ≠ [])
    (more : rest ≠ []) :
    joinWith separator (front ++ rest) = joinWith separator front ++ separator ++ joinWith separator rest := by
  induction front with
  | nil => exact absurd rfl filled
  | cons first front inductionHypothesis =>
      cases front with
      | nil => exact joinWith_cons separator first more
      | cons second others =>
          rw [List.cons_append, joinWith_cons separator first (List.append_ne_nil_of_right_ne_nil _ more),
            joinWith_cons separator first (List.cons_ne_nil _ _),
            inductionHypothesis (List.cons_ne_nil _ _)]
          simp only [List.append_assoc]

/-- Pieces are put together again. -/
theorem joinWith_splitOn (separator : Char) (text : Text) :
    joinWith [separator] (splitOn separator text) = text := by
  induction text with
  | nil => rfl
  | cons letter text inductionHypothesis =>
      rw [splitOn]
      split
      next same =>
        rw [joinWith_cons [separator] [] (splitOn_ne_nil separator text), inductionHypothesis, same]
        rfl
      next =>
        obtain ⟨piece, pieces, split⟩ := List.exists_cons_of_ne_nil (splitOn_ne_nil separator text)
        rw [split] at inductionHypothesis ⊢
        dsimp only
        rw [← inductionHypothesis]
        cases pieces <;> rfl

end Text

namespace Path

variable {path directory : Path} {pieces : List Text}

/-- True for a piece between slashes that is no component. -/
def isIdle (piece : Text) : Bool := (componentOf? piece).isNone

theorem isIdle_iff {piece : Text} : isIdle piece = true ↔ (piece = [] || piece = ['.']) = true := by
  rw [isIdle, componentOf?]
  split
  next isDot => exact iff_of_true rfl isDot
  next notDot => exact iff_of_false (by split <;> simp) notDot

/-- Under the root, everything behind the last component goes. -/
theorem trimPieces_append (pieces : List Text) (first : Text) :
    trimPieces true (pieces ++ [first]) = pieces.dropWhile isIdle ++ [first] := by
  induction pieces with
  | nil => rfl
  | cons piece pieces inductionHypothesis =>
      obtain ⟨second, rest, more⟩ : ∃ second rest, pieces ++ [first] = second :: rest :=
        List.exists_cons_of_ne_nil (by simp)
      rw [List.cons_append, more, trimPieces, ← more, inductionHypothesis, List.dropWhile_cons]
      · cases component : componentOf? piece <;> simp [isIdle, component]
      · simp

/-- Pieces that are no components are not missed. -/
theorem filterMap_dropWhile_isIdle (pieces : List Text) :
    (pieces.dropWhile isIdle).filterMap componentOf? = pieces.filterMap componentOf? := by
  induction pieces with
  | nil => rfl
  | cons piece pieces inductionHypothesis =>
      rw [List.dropWhile_cons]
      cases component : componentOf? piece with
      | none => simp [isIdle, component, inductionHypothesis]
      | some => simp [isIdle, component]

/-- The pieces of an absolute path are trimmed at their end before and after the last component is
taken away. -/
theorem parent?_rooted (letters : Text) :
    parent? ⟨'/' :: letters⟩ =
      match (Text.splitOn '/' letters).reverse.dropWhile isIdle with
      | [] => none
      | _ :: others =>
        some ⟨'/' :: Text.joinWith ['/'] (others.dropWhile isIdle).reverse⟩ := by
  have absolute : isAbsolute ⟨'/' :: letters⟩ = true := rfl
  have split : Text.splitOn '/' ('/' :: letters) = [] :: Text.splitOn '/' letters := if_pos rfl
  rw [parent?, absolute, split, List.reverse_cons, trimPieces_append]
  cases (Text.splitOn '/' letters).reverse.dropWhile isIdle with
  | nil => rfl
  | cons last others =>
      obtain ⟨second, rest, more⟩ : ∃ second rest, others ++ [([] : Text)] = second :: rest :=
        List.exists_cons_of_ne_nil (by simp)
      rw [List.cons_append, more]
      simp only
      rw [← more, trimPieces_append]
      cases kept : others.dropWhile isIdle with
      | nil => rfl
      | cons next others =>
          -- The empty piece in front of the first slash gives back that slash.
          obtain ⟨head, pieces, reversed⟩ : ∃ head pieces, (next :: others).reverse = head :: pieces :=
            List.exists_cons_of_ne_nil (by simp)
          have joined : Text.joinWith ['/'] (next :: others ++ [([] : Text)]).reverse =
              '/' :: Text.joinWith ['/'] (next :: others).reverse := by
            rw [List.reverse_append, reversed]
            rfl
          split
          next single => simp at single
          next => exact congrArg (fun letters => some (Path.mk letters)) joined

/-- Pieces joined below the root are read back. -/
theorem behindSlash_rooted (free : ∀ piece ∈ pieces, '/' ∉ piece) :
    behindSlash ('/' :: Text.joinWith ['/'] pieces) = pieces.filterMap componentOf? := by
  have root : behindSlash ('/' :: Text.joinWith ['/'] pieces) =
      behindSlash (Text.joinWith ['/'] pieces) := behindSlash_append [] _
  cases pieces with
  | nil => rfl
  | cons piece pieces =>
      rw [root, behindSlash, Text.splitOn_joinWith (List.cons_ne_nil _ _) free]

/-- The parent of an absolute path, or the root where there is none, has the components of the path
but the last. -/
theorem behindSlash_parent (absolute : path.isAbsolute = true) :
    (path.parent?.getD ⟨['/']⟩).isAbsolute = true ∧
      behindSlash (path.parent?.getD ⟨['/']⟩).letters = (behindSlash path.letters).dropLast := by
  obtain ⟨letters, rfl⟩ : ∃ letters, path = ⟨'/' :: letters⟩ := by
    obtain ⟨letters, same⟩ := isAbsolute_iff.mp absolute
    exact ⟨letters, congrArg Path.mk same⟩
  have read : behindSlash ('/' :: letters) = (Text.splitOn '/' letters).filterMap componentOf? :=
    behindSlash_append [] letters
  have free : ∀ piece ∈ (Text.splitOn '/' letters).reverse, '/' ∉ piece :=
    fun piece member => Text.notMem_of_mem_splitOn (List.mem_reverse.mp member)
  have reversed : (Text.splitOn '/' letters).filterMap componentOf? =
      (((Text.splitOn '/' letters).reverse.dropWhile isIdle).filterMap componentOf?).reverse := by
    rw [filterMap_dropWhile_isIdle, List.filterMap_reverse, List.reverse_reverse]
  rw [read, parent?_rooted, reversed]
  have kept := (List.dropWhile_suffix (l := (Text.splitOn '/' letters).reverse) isIdle).subset
  have isOne := List.head?_dropWhile_not isIdle (Text.splitOn '/' letters).reverse
  cases trimmed : (Text.splitOn '/' letters).reverse.dropWhile isIdle with
  | nil => exact ⟨rfl, rfl⟩
  | cons last others =>
      rw [trimmed] at kept isOne
      have within := (List.dropWhile_suffix (l := others) isIdle).subset
      obtain ⟨component, isLast⟩ : ∃ component, componentOf? last = some component :=
        Option.isSome_iff_exists.mp (Option.isNone_eq_false_iff.mp isOne)
      refine ⟨rfl, (behindSlash_rooted fun piece member => free piece ?_).trans ?_⟩
      · exact kept (List.mem_cons_of_mem _ (within (List.mem_reverse.mp member)))
      · rw [List.filterMap_reverse, filterMap_dropWhile_isIdle, List.filterMap_cons_some isLast,
          List.reverse_cons, List.dropLast_concat]

/-- A dot in front of a relative path leads nowhere else. -/
theorem normalize_join_dot {letters : Text} (directoryAbsolute : directory.isAbsolute = true)
    (relative : isAbsolute ⟨letters⟩ = false) :
    (directory.join ⟨['.', '/'] ++ letters⟩).normalize = (directory.join ⟨letters⟩).normalize := by
  have dotted : isAbsolute ⟨['.', '/'] ++ letters⟩ = false := rfl
  have idle : behindSlash (['.', '/'] ++ letters) = behindSlash letters :=
    behindSlash_append ['.'] letters
  rw [normalize, normalize, normalComponents, normalComponents,
    components_join directoryAbsolute dotted, components_join directoryAbsolute relative, idle]

/-- A name as directories list it: it stands between slashes and is no dot. -/
structure IsEntryName (name : Text) : Prop where
  filled : name ≠ []
  notDot : name ≠ ['.']
  notDots : name ≠ ['.', '.']
  slashless : '/' ∉ name

namespace IsEntryName

variable {name : Text}

theorem componentOf? (isName : IsEntryName name) : componentOf? name = some (.normal name) := by
  rw [Path.componentOf?, if_neg (by simp [isName.filled, isName.notDot]), if_neg isName.notDots]

theorem isIdle (isName : IsEntryName name) : isIdle name = false := by
  rw [Path.isIdle, isName.componentOf?]
  rfl

end IsEntryName

/-- A component goes down if its name is that of an entry. -/
theorem Component.isName_normal_iff {name : Text} :
    (Component.normal name).IsName ↔ IsEntryName name := by
  constructor
  · intro isName
    have own : Path.componentOf? name = some (.normal name) := isName.isOwn
    refine ⟨?_, ?_, ?_, isName.slashless⟩
    all_goals
      rintro rfl
      exact absurd own (by decide)
  · exact fun isEntry => ⟨⟨isEntry.slashless, isEntry.componentOf?⟩, nofun⟩

/-- The absolute path of some names. -/
def rooted (names : List Text) : Path := ⟨'/' :: Text.joinWith ['/'] names⟩

/-- True if all names are such as directories list them. -/
def AreEntryNames (names : List Text) : Prop := ∀ name ∈ names, IsEntryName name

variable {names other : List Text} {piece last : Text}

namespace AreEntryNames

theorem slashless (areNames : AreEntryNames names) : ∀ name ∈ names, '/' ∉ name :=
  fun name member => (areNames name member).slashless

theorem free (areNames : AreEntryNames names) : ∀ name ∈ names, name ≠ [] ∧ '/' ∉ name :=
  fun name member => ⟨(areNames name member).filled, (areNames name member).slashless⟩

theorem front (areNames : AreEntryNames (names ++ other)) : AreEntryNames names :=
  fun name member => areNames name (List.mem_append_left _ member)

theorem subset (areNames : AreEntryNames names) (isSubset : other ⊆ names) : AreEntryNames other :=
  fun name member => areNames name (isSubset member)

theorem concat (areNames : AreEntryNames names) (isName : IsEntryName last) : AreEntryNames (names ++ [last]) :=
  List.forall_mem_append.mpr ⟨areNames, List.forall_mem_singleton.mpr isName⟩

end AreEntryNames

theorem AreEntryNames.isName (areNames : AreEntryNames names) :
    ∀ component ∈ names.map Component.normal, component.IsName := by
  intro component member
  obtain ⟨name, inside, rfl⟩ := List.mem_map.mp member
  exact Component.isName_normal_iff.mpr (areNames name inside)

theorem isAbsolute_rooted (names : List Text) : (rooted names).isAbsolute = true := rfl

theorem splitOn_joinWith_names (areNames : AreEntryNames names) :
    Text.splitOn '/' (Text.joinWith ['/'] names) = if names = [] then [[]] else names := by
  split
  next none => rw [none]; rfl
  next some => exact Text.splitOn_joinWith some areNames.slashless

/-- The names of an absolute path are its components. -/
theorem components_rooted (areNames : AreEntryNames names) :
    (rooted names).components = .root :: names.map .normal := by
  have same : names.filterMap componentOf? = names.map .normal := by
    rw [← List.filterMap_eq_map]
    exact List.filterMap_congr fun name member => (areNames name member).componentOf?
  rw [components_of_isAbsolute (isAbsolute_rooted names), rooted,
    behindSlash_rooted areNames.slashless, same]

theorem rooted_injective (areNames : AreEntryNames names) (areOthers : AreEntryNames other)
    (same : rooted names = rooted other) : names = other := by
  have components := congrArg Path.components same
  rw [components_rooted areNames, components_rooted areOthers] at components
  exact List.map_injective_iff.mpr (fun _ _ => Component.normal.inj) (List.tail_eq_of_cons_eq components)

theorem ofComponents_normal (names : List Text) :
    ofComponents (.root :: names.map .normal) = rooted names := by
  have letters : Component.letters ∘ Component.normal = id := rfl
  rw [ofComponents, List.map_map, letters, List.map_id, rooted]

/-- An absolute path without its dots is the path of some names. -/
theorem exists_normalize_eq_rooted (absolute : path.isAbsolute = true) :
    ∃ names, AreEntryNames names ∧ path.normalize = rooted names := by
  obtain ⟨components, normal, _, areNames⟩ := normalComponents_of_isAbsolute absolute
  refine ⟨components.map Component.letters, fun name member => ?_, ?_⟩
  · obtain ⟨component, inside, rfl⟩ := List.mem_map.mp member
    obtain ⟨name, rfl⟩ := (areNames component inside).eq_normal
    exact Component.isName_normal_iff.mp (areNames _ inside)
  · rw [normalize, normal]
    rfl

/-- The path of some names has no dots. -/
theorem normalize_rooted (areNames : AreEntryNames names) : (rooted names).normalize = rooted names := by
  have first : push [] .root = [.root] := rfl
  rw [normalize, normalComponents, components_rooted areNames, List.foldl_cons, first,
    foldl_push_names areNames.isName, List.reverse_append, List.reverse_reverse,
    List.reverse_singleton, List.singleton_append, ofComponents_normal]

/-- A path made absolute is that of some names. -/
theorem exists_absolutize_eq_rooted {workingDirectory : Path} (absolute : workingDirectory.isAbsolute = true)
    (path : Path) : ∃ names, AreEntryNames names ∧ path.absolutize workingDirectory = rooted names := by
  rw [absolutize]
  split
  next isAbsolute => exact exists_normalize_eq_rooted isAbsolute
  next => exact exists_normalize_eq_rooted (isAbsolute_join path absolute)

theorem fileName?_rooted (slashless : ∀ piece ∈ pieces, '/' ∉ piece) (isName : IsEntryName last) :
    (rooted (pieces ++ [last])).fileName? = some last := by
  have free : ∀ piece ∈ pieces ++ [last], '/' ∉ piece :=
    List.forall_mem_append.mpr ⟨slashless, List.forall_mem_singleton.mpr isName.slashless⟩
  rw [fileName?, components_of_isAbsolute (isAbsolute_rooted _), rooted, behindSlash_rooted free,
    List.filterMap_append, List.filterMap_cons_some isName.componentOf?, List.filterMap_nil, ← List.cons_append,
    List.getLast?_concat]

theorem fileName?_rooted_concat (areNames : AreEntryNames (names ++ [last])) :
    (rooted (names ++ [last])).fileName? = some last :=
  fileName?_rooted areNames.front.slashless (areNames last (by simp))

theorem mem_letters_rooted_iff {letter : Char} :
    letter ∈ (rooted pieces).letters ↔ letter = '/' ∨ ∃ piece ∈ pieces, letter ∈ piece := by
  rw [rooted, List.mem_cons]
  refine or_congr_right' fun notSlash => ?_
  induction pieces with
  | nil => simp [Text.joinWith]
  | cons piece pieces inductionHypothesis =>
      by_cases last : pieces = []
      · simp [last, Text.joinWith]
      · simp [Text.joinWith_cons ['/'] piece last, inductionHypothesis, notSlash]

/-- A relative path seen from an absolute one stands behind its pieces. -/
theorem join_rooted {rest : List Text} (free : ∀ last ∈ pieces.getLast?, last ≠ [] ∧ '/' ∉ last)
    (more : rest ≠ []) (relative : isAbsolute ⟨Text.joinWith ['/'] rest⟩ = false) :
    (rooted pieces).join ⟨Text.joinWith ['/'] rest⟩ = rooted (pieces ++ rest) := by
  rw [join, relative, if_neg Bool.false_ne_true]
  by_cases none : pieces = []
  · rw [none]
    rfl
  obtain ⟨front, last, rfl⟩ := (List.eq_nil_or_concat' pieces).resolve_left none
  obtain ⟨filled, slashless⟩ := free last (by simp)
  have ends : (rooted (front ++ [last])).letters.getLast? ≠ some '/' := by
    obtain ⟨letters, same⟩ : ∃ letters, (rooted (front ++ [last])).letters = letters ++ last := by
      by_cases isFirst : front = []
      · exact ⟨['/'], by rw [isFirst]; rfl⟩
      · refine ⟨'/' :: (Text.joinWith ['/'] front ++ ['/']), ?_⟩
        rw [rooted, Text.joinWith_append ['/'] isFirst (List.cons_ne_nil _ _)]
        rfl
    rw [same, List.getLast?_append_of_ne_nil _ filled]
    exact fun slash => slashless (List.mem_of_getLast? slash)
  have begins : (rooted (front ++ [last])).letters ≠ [] := List.cons_ne_nil _ _
  rw [if_neg (by simp [begins, ends]), rooted, rooted, Text.joinWith_append ['/'] none more]
  simp only [List.cons_append, List.append_assoc, List.nil_append]

/-- Only a slash in front makes a path absolute. -/
theorem isAbsolute_of_slashless {letters : Text} (free : '/' ∉ letters) : isAbsolute ⟨letters⟩ = false :=
  decide_eq_false fun isFirst => free (List.mem_of_head? isFirst)

theorem join_rooted_name {names : List Text} {name : Text} (areNames : AreEntryNames names)
    (isName : IsEntryName name) : (rooted names).join ⟨name⟩ = rooted (names ++ [name]) :=
  join_rooted (fun last isLast => areNames.free last (List.mem_of_getLast? isLast)) (List.cons_ne_nil name [])
    (isAbsolute_of_slashless isName.slashless)

theorem letters_rooted_append (filled : names ≠ []) (pieces : List Text) :
    (rooted (names ++ pieces)).letters =
      (rooted names).letters ++ if pieces = [] then [] else '/' :: Text.joinWith ['/'] pieces := by
  by_cases none : pieces = []
  · rw [none, if_pos rfl, List.append_nil, List.append_nil]
  · rw [if_neg none, rooted, Text.joinWith_append ['/'] filled none, List.append_assoc]
    rfl

/-- A relative path seen from names stands behind them. -/
theorem join_rooted_splitOn {letters : Text} (areNames : AreEntryNames names)
    (relative : isAbsolute ⟨letters⟩ = false) :
    (rooted names).join ⟨letters⟩ = rooted (names ++ Text.splitOn '/' letters) := by
  have joined := Text.joinWith_splitOn '/' letters
  have ends : ∀ last ∈ names.getLast?, last ≠ [] ∧ '/' ∉ last :=
    fun last isLast => areNames.free last (List.mem_of_getLast? isLast)
  rw [← join_rooted ends (Text.splitOn_ne_nil '/' letters) (by rwa [joined]), joined]

theorem letters_join_rooted {letters : Text} (areNames : AreEntryNames names) (filled : names ≠ [])
    (relative : isAbsolute ⟨letters⟩ = false) :
    ((rooted names).join ⟨letters⟩).letters = (rooted names).letters ++ '/' :: letters := by
  rw [join_rooted_splitOn areNames relative, letters_rooted_append filled,
    if_neg (Text.splitOn_ne_nil '/' letters), Text.joinWith_splitOn]

/-- The pieces of a path that goes on with a further piece. An empty piece at the end was only the slash in
front of that one. -/
def pushPiece (pieces : List Text) (piece : Text) : List Text :=
  (if pieces.getLast? = some [] then pieces.dropLast else pieces) ++ [piece]

theorem mem_pushPiece {other : Text} (member : other ∈ pushPiece pieces piece) :
    other ∈ pieces ∨ other = piece := by
  rw [pushPiece, List.mem_append, List.mem_singleton] at member
  refine member.imp_left fun inFront => ?_
  split at inFront
  · exact List.mem_of_mem_dropLast inFront
  · exact inFront

theorem pushPiece_append (areNames : AreEntryNames names) (filled : names ≠ []) (pieces : List Text)
    (piece : Text) :
    pushPiece (names ++ pieces) piece = names ++ pushPiece pieces piece := by
  by_cases none : pieces = []
  · obtain ⟨front, last, rfl⟩ := (List.eq_nil_or_concat' names).resolve_left filled
    have isLast : last ≠ [] := (areNames last (by simp)).filled
    simp [pushPiece, none, isLast]
  · rw [pushPiece, pushPiece, List.getLast?_append_of_ne_nil _ none, ← List.append_assoc]
    split
    · rw [List.dropLast_append_of_ne_nil none]
    · rfl

/-- A piece seen from an absolute path. -/
theorem join_rooted_piece (filled : pieces ≠ []) (slashless : ∀ other ∈ pieces, '/' ∉ other)
    (free : '/' ∉ piece) : (rooted pieces).join ⟨piece⟩ = rooted (pushPiece pieces piece) := by
  have joins : ∀ {front : List Text}, (∀ last ∈ front.getLast?, last ≠ [] ∧ '/' ∉ last) →
      (rooted front).join ⟨piece⟩ = rooted (front ++ [piece]) :=
    fun ends => join_rooted ends (List.cons_ne_nil piece []) (isAbsolute_of_slashless free)
  rw [pushPiece]
  split
  next isSlash =>
    obtain ⟨front, rfl⟩ := List.getLast?_eq_some_iff.mp isSlash
    rw [List.dropLast_concat]
    by_cases isFirst : front = []
    · have atRoot : (rooted []).join ⟨piece⟩ = rooted ([] ++ [piece]) := joins fun _ isLast => by cases isLast
      rw [isFirst]
      exact atRoot
    · -- The slash at the end stands already.
      have letters : (rooted (front ++ [([] : Text)])).letters = (rooted front).letters ++ ['/'] :=
        letters_rooted_append isFirst [[]]
      have whole : (rooted (front ++ [piece])).letters = (rooted front).letters ++ '/' :: piece :=
        letters_rooted_append isFirst [piece]
      rw [join, isAbsolute_of_slashless free, if_neg Bool.false_ne_true, if_pos (by simp [letters]), letters,
        List.append_assoc]
      exact congrArg Path.mk whole.symm
  next notSlash =>
    exact joins fun last isLast =>
      ⟨fun none => notSlash (none ▸ isLast), slashless last (List.mem_of_getLast? isLast)⟩

/-- Below some names, the pieces go on below them. -/
theorem join_rooted_append (areNames : AreEntryNames names) (filled : names ≠ [])
    (slashless : ∀ other ∈ pieces, '/' ∉ other) (free : '/' ∉ piece) :
    (rooted (names ++ pieces)).join ⟨piece⟩ = rooted (names ++ pushPiece pieces piece) := by
  rw [join_rooted_piece (List.append_ne_nil_of_left_ne_nil filled _)
    (List.forall_mem_append.mpr ⟨areNames.slashless, slashless⟩) free, pushPiece_append areNames filled]

/-! ### Parents -/

theorem dropWhile_isIdle_reverse (areNames : AreEntryNames names) :
    names.reverse.dropWhile isIdle = names.reverse := by
  refine List.dropWhile_eq_self_iff.mpr fun some => ?_
  have member : names.reverse[0] ∈ names := List.mem_reverse.mp (List.getElem_mem some)
  rw [(areNames _ member).isIdle]
  exact Bool.false_ne_true

/-- Going up takes the last name away. -/
theorem parent?_rooted_concat (areNames : AreEntryNames (names ++ [last])) :
    (rooted (names ++ [last])).parent? = some (rooted names) := by
  have filled : names ++ [last] ≠ [] := by simp
  have isLast : isIdle last = false := (areNames last (by simp)).isIdle
  have kept := dropWhile_isIdle_reverse areNames.front
  rw [rooted, parent?_rooted, splitOn_joinWith_names areNames, if_neg filled, List.reverse_append,
    List.reverse_singleton, List.singleton_append, List.dropWhile_cons_of_neg (by simp [isLast])]
  simp only [kept, List.reverse_reverse]
  rfl

/-- The pieces that are left above the last component. -/
def upperPieces (pieces : List Text) : List Text :=
  ((pieces.reverse.dropWhile isIdle).tail.dropWhile isIdle).reverse

/-- Going up from below some names leads to them or below them. -/
theorem parent?_rooted_append (areNames : AreEntryNames names) (filled : names ≠ [])
    (slashless : ∀ piece ∈ pieces, '/' ∉ piece) (named : ∃ piece ∈ pieces, isIdle piece = false) :
    (rooted (names ++ pieces)).parent? = some (rooted (names ++ upperPieces pieces)) := by
  have free : ∀ piece ∈ names ++ pieces, '/' ∉ piece :=
    List.forall_mem_append.mpr ⟨areNames.slashless, slashless⟩
  have kept := dropWhile_isIdle_reverse areNames
  have above : ∀ others : List Text, (others ++ names.reverse).dropWhile isIdle =
      others.dropWhile isIdle ++ names.reverse := by
    intro others
    rw [List.dropWhile_append, kept]
    split
    next none => rw [List.isEmpty_iff.mp none, List.nil_append]
    next => rfl
  obtain ⟨piece, isPiece, notIdle⟩ := named
  have some : pieces.reverse.dropWhile isIdle ≠ [] := by
    intro none
    have idle := List.dropWhile_eq_nil_iff.mp none piece (List.mem_reverse.mpr isPiece)
    rw [notIdle] at idle
    cases idle
  obtain ⟨last, others, isLast⟩ := List.exists_cons_of_ne_nil some
  rw [rooted, parent?_rooted, Text.splitOn_joinWith (List.append_ne_nil_of_left_ne_nil filled _) free,
    List.reverse_append, above, isLast, List.cons_append]
  simp only [above, upperPieces, isLast, List.tail_cons, List.reverse_append, List.reverse_reverse, rooted]

/-- The absolute path of a stack of names, of which the last comes first. -/
def stacked (stack : List Text) : Path := rooted stack.reverse

variable {stack front behind : List Text} {name : Text}

theorem parent?_stacked_cons (areNames : AreEntryNames (name :: stack)) :
    (stacked (name :: stack)).parent? = some (stacked stack) := by
  rw [stacked, List.reverse_cons]
  refine parent?_rooted_concat fun other member => areNames other ?_
  simpa [or_comm] using member

/-- There is a letter for each name at least. -/
theorem length_le_length_stacked (areNames : AreEntryNames stack) :
    stack.length ≤ (stacked stack).letters.length := by
  have least : ∀ names : List Text, AreEntryNames names →
      names.length ≤ (Text.joinWith ['/'] names).length := by
    intro names areNames
    induction names with
    | nil => exact Nat.le_refl 0
    | cons first rest inductionHypothesis =>
        obtain ⟨isName, areNames⟩ := List.forall_mem_cons.mp areNames
        have filled := List.length_pos_iff.mpr isName.filled
        have further := inductionHypothesis areNames
        cases rest with
        | nil => exact filled
        | cons second rest =>
            simp only [Text.joinWith, List.length_append, List.length_cons, List.length_nil] at further ⊢
            omega
  have enough := least stack.reverse fun name member => areNames name (List.mem_reverse.mp member)
  rw [List.length_reverse] at enough
  exact Nat.le_succ_of_le enough

theorem upwards_stacked {fuel : Nat} (areNames : AreEntryNames stack) (enough : stack.length < fuel) :
    upwards fuel (stacked stack) = stack.tails.map stacked := by
  induction stack generalizing fuel with
  | nil =>
      obtain ⟨fuel, rfl⟩ := Nat.exists_eq_add_one_of_ne_zero (Nat.ne_of_gt enough)
      rfl
  | cons name stack inductionHypothesis =>
      obtain ⟨fuel, rfl⟩ := Nat.exists_eq_add_one_of_ne_zero (Nat.ne_zero_of_lt enough)
      rw [upwards, parent?_stacked_cons areNames, List.tails_cons, List.map_cons]
      exact congrArg _ (inductionHypothesis (List.forall_mem_cons.mp areNames).2
        (Nat.lt_of_succ_lt_succ enough))

/-- The path and its parents lose one name after the other. -/
theorem ancestors_stacked (areNames : AreEntryNames stack) :
    (stacked stack).ancestors = stack.tails.map stacked :=
  upwards_stacked areNames (by have := length_le_length_stacked areNames; omega)

theorem mem_ancestors_stacked (areNames : AreEntryNames stack) :
    path ∈ (stacked stack).ancestors ↔ ∃ upper, upper <:+ stack ∧ path = stacked upper := by
  rw [ancestors_stacked areNames, List.mem_map]
  exact exists_congr fun upper => and_congr (List.mem_tails upper stack) eq_comm

theorem stacked_injective (areNames : AreEntryNames stack) (areOthers : AreEntryNames other)
    (same : stacked stack = stacked other) : stack = other :=
  List.reverse_injective (rooted_injective
    (fun name member => areNames name (List.mem_reverse.mp member))
    (fun name member => areOthers name (List.mem_reverse.mp member)) same)

/-- The parents of a path that lies below another are nearer than that one until it is met. -/
theorem ancestors_append (areNames : AreEntryNames (front ++ behind)) :
    ∃ nearer, (stacked (front ++ behind)).ancestors = nearer ++ (stacked behind).ancestors ∧
      ∀ path ∈ nearer, path ∉ (stacked behind).ancestors := by
  have areBehind : AreEntryNames behind := fun name member => areNames name (List.mem_append_right _ member)
  rw [ancestors_stacked areNames, ancestors_stacked areBehind]
  induction front with
  | nil => exact ⟨[], rfl, nofun⟩
  | cons name front inductionHypothesis =>
      obtain ⟨nearer, split, apart⟩ := inductionHypothesis (List.forall_mem_cons.mp areNames).2
      refine ⟨stacked (name :: front ++ behind) :: nearer, ?_, List.forall_mem_cons.mpr ⟨?_, apart⟩⟩
      · rw [List.cons_append, List.tails_cons, List.map_cons, split, List.cons_append]
      · intro member
        obtain ⟨upper, isUpper, same⟩ := List.mem_map.mp member
        have upperSuffix := (List.mem_tails upper behind).mp isUpper
        have areUpper : AreEntryNames upper := areBehind.subset upperSuffix.subset
        have length := congrArg List.length (stacked_injective areUpper areNames same)
        have shorter := upperSuffix.length_le
        simp only [List.cons_append, List.length_cons, List.length_append] at length
        omega

end Path

end ImportMeter
