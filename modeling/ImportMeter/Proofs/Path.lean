/-
This file proves that a path written as an import specifier for a directory names, seen from that
directory, the path that it was.
-/
import Mathlib.Data.List.Basic
import ImportMeter.Path.Normal
import ImportMeter.Proofs.Text

namespace ImportMeter

namespace Text

variable {separator : Char} {text piece : Text}

/-- A text has at least one piece. -/
theorem splitOn_ne_nil (separator : Char) (text : Text) : splitOn separator text ≠ [] := by
  induction text with
  | nil => exact List.cons_ne_nil _ _
  | cons letter text _ =>
      rw [splitOn]
      split
      · exact List.cons_ne_nil _ _
      · split <;> exact List.cons_ne_nil _ _

/-- The pieces on both sides of a separator. -/
theorem splitOn_append (separator : Char) (first second : Text) :
    splitOn separator (first ++ separator :: second) =
      splitOn separator first ++ splitOn separator second := by
  induction first with
  | nil => simp [splitOn]
  | cons letter first inductionHypothesis =>
      rw [List.cons_append, splitOn, splitOn, inductionHypothesis]
      split
      · rfl
      · cases pieces : splitOn separator first with
        | nil => exact absurd pieces (splitOn_ne_nil separator first)
        | cons => rfl

theorem splitOn_of_notMem (free : separator ∉ text) : splitOn separator text = [text] := by
  induction text with
  | nil => rfl
  | cons letter text inductionHypothesis =>
      rw [List.mem_cons, not_or] at free
      rw [splitOn, if_neg (Ne.symm free.1), inductionHypothesis free.2]

/-- No piece contains the separator. -/
theorem notMem_of_mem_splitOn (member : piece ∈ splitOn separator text) : separator ∉ piece := by
  induction text generalizing piece with
  | nil => simp_all [splitOn]
  | cons letter text inductionHypothesis =>
      rw [splitOn] at member
      split at member
      next =>
        rcases List.mem_cons.mp member with rfl | inRest
        · exact List.not_mem_nil
        · exact inductionHypothesis inRest
      next other =>
        cases pieces : splitOn separator text with
        | nil => exact absurd pieces (splitOn_ne_nil separator text)
        | cons first rest =>
            rw [pieces] at member inductionHypothesis
            rcases List.mem_cons.mp member with rfl | inRest
            · rw [List.mem_cons, not_or]
              exact ⟨Ne.symm other, inductionHypothesis List.mem_cons_self⟩
            · exact inductionHypothesis (List.mem_cons_of_mem _ inRest)

/-- The pieces of joined texts without separators are those texts. -/
theorem splitOn_joinWith {pieces : List Text} (some : pieces ≠ [])
    (free : ∀ piece ∈ pieces, separator ∉ piece) :
    splitOn separator (joinWith [separator] pieces) = pieces := by
  induction pieces with
  | nil => exact absurd rfl some
  | cons first rest inductionHypothesis =>
      obtain ⟨firstFree, restFree⟩ := List.forall_mem_cons.mp free
      cases rest with
      | nil => exact splitOn_of_notMem firstFree
      | cons second rest =>
          have joined : joinWith [separator] (first :: second :: rest) =
              first ++ separator :: joinWith [separator] (second :: rest) := by
            simp [joinWith]
          rw [joined, splitOn_append, splitOn_of_notMem firstFree,
            inductionHypothesis (List.cons_ne_nil _ _) restFree, List.singleton_append]

end Text

namespace Path

variable {path directory : Path} {component : Component} {read names : List Component}

/-- A component that stands between slashes as it is written. -/
structure Component.IsPiece (component : Component) : Prop where
  slashless : '/' ∉ component.letters
  isOwn : componentOf? component.letters = some component

/-- A component that goes down from where it stands. -/
structure Component.IsName (component : Component) : Prop extends component.IsPiece where
  down : component ≠ .parent

theorem componentOf?_letters {piece : Text} (found : componentOf? piece = some component) :
    component.letters = piece := by
  rw [componentOf?] at found
  split at found
  · cases found
  · split at found <;> cases found
    next up => exact up.symm
    next => rfl

theorem Component.isPiece_parent : Component.parent.IsPiece where
  slashless := by decide
  isOwn := rfl

/-- A piece between slashes goes up or is a name. -/
theorem Component.IsPiece.eq_parent_or_isName (isPiece : component.IsPiece) :
    component = .parent ∨ component.IsName := by
  by_cases up : component = .parent
  · exact .inl up
  · exact .inr ⟨isPiece, up⟩

theorem Component.IsName.eq_normal (isName : component.IsName) : ∃ name, component = .normal name := by
  have own := isName.isOwn
  rw [componentOf?] at own
  split at own
  · cases own
  · split at own
    · exact absurd (Option.some.inj own).symm isName.down
    · exact ⟨_, (Option.some.inj own).symm⟩

theorem push_name (isName : component.IsName) : push read component = component :: read := by
  obtain ⟨name, rfl⟩ := isName.eq_normal
  rfl

theorem push_parent (isName : component.IsName) : push (component :: read) .parent = read := by
  obtain ⟨name, rfl⟩ := isName.eq_normal
  rfl

/-- The name that a component has in another spelling. -/
def Component.spelledBy (spell : Text → Text) (component : Component) : Component :=
  .normal (spell component.letters)

theorem Component.IsName.spelledBy_id (isName : component.IsName) :
    component.spelledBy id = component := by
  obtain ⟨name, rfl⟩ := isName.eq_normal
  rfl

/-- The components that the pieces of a text stand for behind a slash. -/
def behindSlash (letters : Text) : List Component :=
  (letters.splitOn '/').filterMap componentOf?

theorem behindSlash_append (first second : Text) :
    behindSlash (first ++ '/' :: second) = behindSlash first ++ behindSlash second := by
  rw [behindSlash, Text.splitOn_append, List.filterMap_append, behindSlash, behindSlash]

theorem isPiece_of_mem_behindSlash {letters : Text} (member : component ∈ behindSlash letters) :
    component.IsPiece := by
  obtain ⟨piece, inPieces, found⟩ := List.mem_filterMap.mp member
  have same := componentOf?_letters found
  exact ⟨same ▸ Text.notMem_of_mem_splitOn inPieces, same ▸ found⟩

/-- Pieces that are written between slashes are read back. -/
theorem behindSlash_joinWith {components : List Component}
    (pieces : ∀ component ∈ components, component.IsPiece) :
    behindSlash (Text.joinWith ['/'] (components.map Component.letters)) = components := by
  cases components with
  | nil => rfl
  | cons first rest =>
      have free : ∀ piece ∈ (first :: rest).map Component.letters, '/' ∉ piece := by
        intro piece member
        obtain ⟨component, inside, rfl⟩ := List.mem_map.mp member
        exact (pieces component inside).slashless
      have some : (first :: rest).map Component.letters ≠ [] := List.cons_ne_nil _ _
      rw [behindSlash, Text.splitOn_joinWith some free, List.filterMap_map]
      have same : ∀ component ∈ first :: rest,
          (componentOf? ∘ Component.letters) component = Option.some component :=
        fun component member => (pieces component member).isOwn
      rw [List.filterMap_congr same, List.filterMap_some]

theorem isAbsolute_iff : path.isAbsolute = true ↔ ∃ rest, path.letters = '/' :: rest := by
  rw [isAbsolute, decide_eq_true_eq, List.head?_eq_some_iff]

theorem components_of_isAbsolute (isAbsolute : path.isAbsolute = true) :
    path.components = .root :: behindSlash path.letters := by
  obtain ⟨rest, letters⟩ := isAbsolute_iff.mp isAbsolute
  have split : path.letters.splitOn '/' = [] :: Text.splitOn '/' rest := by
    rw [letters, Text.splitOn, if_pos rfl]
  rw [components, behindSlash, split]
  simp only [isAbsolute, if_true, List.singleton_append]
  rfl

/-- True if the components read so far are names below the root, the last of which comes first. -/
def IsRooted (read : List Component) : Prop :=
  ∃ names : List Component, read = names ++ [.root] ∧ ∀ component ∈ names, component.IsName

theorem IsRooted.push (rooted : IsRooted read) (isPiece : component.IsPiece) :
    IsRooted (push read component) := by
  obtain ⟨names, rfl, areNames⟩ := rooted
  rcases isPiece.eq_parent_or_isName with rfl | isName
  · cases names with
    | nil => exact ⟨[], rfl, areNames⟩
    | cons first rest =>
        obtain ⟨isName, areNames⟩ := List.forall_mem_cons.mp areNames
        exact ⟨rest, push_parent isName, areNames⟩
  · exact ⟨component :: names, push_name isName, List.forall_mem_cons.mpr ⟨isName, areNames⟩⟩

theorem IsRooted.foldl_push {components : List Component} (rooted : IsRooted read)
    (pieces : ∀ component ∈ components, component.IsPiece) :
    IsRooted (components.foldl Path.push read) := by
  induction components generalizing read with
  | nil => exact rooted
  | cons first rest inductionHypothesis =>
      obtain ⟨isPiece, pieces⟩ := List.forall_mem_cons.mp pieces
      exact inductionHypothesis (rooted.push isPiece) pieces

/-- Going down along names puts them in front of what was read. -/
theorem foldl_push_names (areNames : ∀ component ∈ names, component.IsName) :
    names.foldl push read = names.reverse ++ read := by
  induction names generalizing read with
  | nil => rfl
  | cons first rest inductionHypothesis =>
      obtain ⟨isName, areNames⟩ := List.forall_mem_cons.mp areNames
      rw [List.foldl_cons, push_name isName, inductionHypothesis areNames, List.reverse_cons,
        List.append_assoc, List.singleton_append]

/-- Going up as often as there are names drops them. -/
theorem foldl_push_parents (areNames : ∀ component ∈ names, component.IsName) :
    (List.replicate names.length Component.parent).foldl push (names ++ read) = read := by
  induction names with
  | nil => rfl
  | cons first rest inductionHypothesis =>
      obtain ⟨isName, areNames⟩ := List.forall_mem_cons.mp areNames
      rw [List.length_cons, List.replicate_succ, List.foldl_cons, List.cons_append,
        push_parent isName, inductionHypothesis areNames]

/-- What an absolute path is without dots: names below the root. -/
theorem normalComponents_of_isAbsolute (isAbsolute : path.isAbsolute = true) :
    ∃ names : List Component, path.normalComponents = .root :: names ∧
      (behindSlash path.letters).foldl push [.root] = names.reverse ++ [.root] ∧
      ∀ component ∈ names, component.IsName := by
  have start : IsRooted [.root] := ⟨[], rfl, List.forall_mem_nil _⟩
  have pieces : ∀ component ∈ behindSlash path.letters, component.IsPiece :=
    fun _ => isPiece_of_mem_behindSlash
  obtain ⟨names, folded, areNames⟩ := start.foldl_push pieces
  refine ⟨names.reverse, ?_, by rw [folded, List.reverse_reverse],
    fun component member => areNames component (List.mem_reverse.mp member)⟩
  have first : push [] .root = [.root] := rfl
  rw [normalComponents, components_of_isAbsolute isAbsolute, List.foldl_cons, first, folded,
    List.reverse_append, List.reverse_singleton, List.singleton_append]

theorem isAbsolute_normalize (isAbsolute : path.isAbsolute = true) :
    path.normalize.isAbsolute = true := by
  obtain ⟨names, normal, _, _⟩ := normalComponents_of_isAbsolute isAbsolute
  rw [normalize, normal]
  rfl

/-- The normalized path is read as the components it is made of. -/
theorem components_normalize (isAbsolute : path.isAbsolute = true) :
    path.normalize.components = path.normalComponents := by
  rw [components_of_isAbsolute (isAbsolute_normalize isAbsolute)]
  obtain ⟨names, normal, _, areNames⟩ := normalComponents_of_isAbsolute isAbsolute
  have letters : path.normalize.letters =
      [] ++ '/' :: Text.joinWith ['/'] (names.map Component.letters) := by
    rw [normalize, normal]
    rfl
  rw [letters, behindSlash_append, normal,
    behindSlash_joinWith fun component member => (areNames component member).toIsPiece]
  rfl

/-- What is left behind a common front makes up both lists together with it. -/
theorem dropCommon_spec (first second : List Component) :
    ∃ common, first = common ++ (dropCommon first second).1 ∧
      second = common ++ (dropCommon first second).2 := by
  induction first generalizing second with
  | nil => exact ⟨[], rfl, rfl⟩
  | cons head first inductionHypothesis =>
      cases second with
      | nil => exact ⟨[], rfl, rfl⟩
      | cons other second =>
          rw [dropCommon]
          split
          next same =>
            obtain ⟨common, isFirst, isSecond⟩ := inductionHypothesis second
            exact ⟨head :: common, congrArg (head :: ·) isFirst, same ▸ congrArg (head :: ·) isSecond⟩
          next => exact ⟨[], rfl, rfl⟩

/-- The path that is seen from a directory goes up and then down. -/
theorem exists_relativeBy (spell : Text → Text) (directoryAbsolute : directory.isAbsolute = true)
    (pathAbsolute : path.isAbsolute = true) :
    ∃ common up : List Component,
      directory.normalComponents = .root :: (common ++ up) ∧
      path.normalComponents = .root :: (common ++ path.downFrom directory) ∧
      (∀ component ∈ common ++ up, component.IsName) ∧
      (∀ component ∈ common ++ path.downFrom directory, component.IsName) ∧
      path.relativeBy spell directory = Text.joinWith ['/']
        ((List.replicate up.length Component.parent ++
          (path.downFrom directory).map (Component.spelledBy spell)).map Component.letters) := by
  obtain ⟨names, normal, _, areNames⟩ := normalComponents_of_isAbsolute directoryAbsolute
  obtain ⟨others, otherNormal, _, areOthers⟩ := normalComponents_of_isAbsolute pathAbsolute
  obtain ⟨common, isFirst, isSecond⟩ := dropCommon_spec names others
  have dropped : dropCommon (.root :: names) (.root :: others) = dropCommon names others := if_pos rfl
  have downFrom : path.downFrom directory = (dropCommon names others).2 := by
    rw [Path.downFrom, components_normalize directoryAbsolute, components_normalize pathAbsolute, normal,
      otherNormal, dropped]
  have relative : path.relativeBy spell directory = Text.joinWith ['/']
      ((((dropCommon names others).1.filter fun component =>
          component ≠ .root && component ≠ .current).map fun _ => ['.', '.']) ++
        (path.downFrom directory).map fun component => spell component.letters) := by
    rw [relativeBy, components_normalize directoryAbsolute, components_normalize pathAbsolute,
      normal, otherNormal, dropped]
  rw [← downFrom] at isSecond
  generalize (dropCommon names others).1 = up at isFirst relative
  subst isFirst isSecond
  refine ⟨common, up, normal, otherNormal, areNames, areOthers, ?_⟩
  have all : up.filter (fun component => component ≠ .root && component ≠ .current) = up := by
    refine List.filter_eq_self.mpr fun component member => ?_
    obtain ⟨name, rfl⟩ := (areNames component (List.mem_append_right _ member)).eq_normal
    rfl
  rw [relative, all, List.map_append, List.map_const', List.map_replicate, List.map_map]
  rfl

/-- A specifier says from where it leads: from the directory or from the one above. -/
theorem specifierBy_begins (spell : Text → Text) (path directory : Path) :
    (∃ rest, path.specifierBy spell directory = ['.', '/'] ++ rest) ∨
      ∃ rest, path.specifierBy spell directory = ['.', '.', '/'] ++ rest := by
  rw [specifierBy]
  split
  next dotted =>
    rw [Bool.or_eq_true, Text.startsWith_iff, Text.startsWith_iff] at dotted
    exact dotted.symm
  next => exact .inl ⟨_, rfl⟩

theorem specifierBy_dotted (spell : Text → Text) (path directory : Path) :
    ∃ rest, path.specifierBy spell directory = '.' :: rest := by
  rcases specifierBy_begins spell path directory with ⟨rest, same⟩ | ⟨rest, same⟩
  · exact ⟨_, same⟩
  · exact ⟨_, same⟩

/-- A specifier is the relative path, or has it behind a dot and a slash. -/
theorem specifierBy_cases (spell : Text → Text) (path directory : Path) :
    path.specifierBy spell directory = path.relativeBy spell directory ∨
      path.specifierBy spell directory = ['.', '/'] ++ path.relativeBy spell directory := by
  rw [specifierBy]
  split
  · exact .inl rfl
  · exact .inr rfl

/-- What is seen from an absolute directory is absolute. -/
theorem isAbsolute_join (path : Path) (absolute : directory.isAbsolute = true) :
    (directory.join path).isAbsolute = true := by
  rw [join]
  split
  next isAbsolute => exact isAbsolute
  next =>
    obtain ⟨rest, letters⟩ := isAbsolute_iff.mp absolute
    rw [isAbsolute_iff, letters]
    split <;> exact ⟨_, rfl⟩

/-- The pieces of joined paths, one behind the other. -/
theorem behindSlash_join (relative : path.isAbsolute = false) :
    behindSlash (directory.join path).letters =
      behindSlash directory.letters ++ behindSlash path.letters := by
  have nothing : behindSlash [] = [] := rfl
  rw [join, relative]
  simp only [Bool.false_eq_true, if_false]
  split
  next ends =>
    rw [Bool.or_eq_true, decide_eq_true_eq, decide_eq_true_eq] at ends
    rcases ends with empty | slash
    · rw [empty, nothing, List.nil_append, List.nil_append]
    · obtain ⟨front, letters⟩ := List.getLast?_eq_some_iff.mp slash
      rw [letters, List.append_assoc, List.singleton_append, behindSlash_append, behindSlash_append,
        nothing, List.append_nil]
  next => rw [behindSlash_append]

/-- A relative path seen from a directory is read behind the directory's own components. -/
theorem components_join (directoryAbsolute : directory.isAbsolute = true)
    (relative : path.isAbsolute = false) :
    (directory.join path).components =
      .root :: (behindSlash directory.letters ++ behindSlash path.letters) := by
  rw [components_of_isAbsolute (isAbsolute_join path directoryAbsolute), behindSlash_join relative]

/-- Seen from the directory, what is read as the relative path leads from the common front down along the
names as they are spelled. -/
theorem normalComponents_join_relativeBy {spell : Text → Text} {letters : Text}
    (directoryAbsolute : directory.isAbsolute = true) (pathAbsolute : path.isAbsolute = true)
    (begins : ∃ rest, letters = '.' :: rest)
    (same : letters = path.relativeBy spell directory ∨
      letters = ['.', '/'] ++ path.relativeBy spell directory)
    (spelled : ∀ component ∈ path.downFrom directory, (component.spelledBy spell).IsName) :
    ∃ common : List Component,
      path.normalComponents = .root :: (common ++ path.downFrom directory) ∧
      (directory.join ⟨letters⟩).normalComponents =
        .root :: (common ++ (path.downFrom directory).map (Component.spelledBy spell)) := by
  obtain ⟨common, up, isDirectory, isPath, areUp, _, relative⟩ :=
    exists_relativeBy spell directoryAbsolute pathAbsolute
  have areDown : ∀ component ∈ (path.downFrom directory).map (Component.spelledBy spell),
      component.IsName := List.forall_mem_map.mpr spelled
  have notAbsolute : isAbsolute ⟨letters⟩ = false := by
    obtain ⟨rest, rfl⟩ := begins
    rfl
  have sameRead : behindSlash letters = behindSlash (path.relativeBy spell directory) := by
    rcases same with same | same
    · rw [same]
    · rw [same]
      exact behindSlash_append ['.'] _
  refine ⟨common, isPath, ?_⟩
  have read : behindSlash letters = List.replicate up.length Component.parent ++
      (path.downFrom directory).map (Component.spelledBy spell) := by
    rw [sameRead, relative]
    refine behindSlash_joinWith fun component member => ?_
    rcases List.mem_append.mp member with isUp | isDown
    · rw [List.eq_of_mem_replicate isUp]
      exact Component.isPiece_parent
    · exact (areDown component isDown).toIsPiece
  -- Behind the directory's own names, the specifier goes up to the common front and down again.
  obtain ⟨names, normal, folded, _⟩ := normalComponents_of_isAbsolute directoryAbsolute
  obtain rfl : names = common ++ up := List.tail_eq_of_cons_eq (normal.symm.trans isDirectory)
  have first : push [] .root = [.root] := rfl
  rw [normalComponents, components_join directoryAbsolute notAbsolute, List.foldl_cons, first,
    List.foldl_append, folded, read, List.foldl_append, List.reverse_append, List.append_assoc,
    ← List.length_reverse, foldl_push_parents fun component member =>
      areUp component (List.mem_append_right _ (List.mem_reverse.mp member)),
    foldl_push_names areDown]
  simp

theorem isName_of_mem_downFrom (directoryAbsolute : directory.isAbsolute = true)
    (pathAbsolute : path.isAbsolute = true) (member : component ∈ path.downFrom directory) :
    component.IsName := by
  obtain ⟨common, up, _, _, _, areDown, _⟩ := exists_relativeBy id directoryAbsolute pathAbsolute
  exact areDown component (List.mem_append_right _ member)

/-- Seen from the directory, the specifier names the path that it was written for. -/
theorem normalComponents_join_importSpecifier (directoryAbsolute : directory.isAbsolute = true)
    (pathAbsolute : path.isAbsolute = true) :
    (directory.join ⟨path.importSpecifier directory⟩).normalComponents = path.normalComponents := by
  have areNames : ∀ component ∈ path.downFrom directory, component.IsName :=
    fun component => isName_of_mem_downFrom directoryAbsolute pathAbsolute
  have asTheyAre : ∀ component ∈ path.downFrom directory, component.spelledBy id = component :=
    fun component member => (areNames component member).spelledBy_id
  obtain ⟨common, isPath, joined⟩ := normalComponents_join_relativeBy directoryAbsolute pathAbsolute
    (specifierBy_dotted id path directory) (specifierBy_cases id path directory)
    fun component member => by
      rw [asTheyAre component member]
      exact areNames component member
  rw [importSpecifier, joined, isPath, List.map_congr_left asTheyAre, List.map_id']

theorem normalize_join_importSpecifier (directoryAbsolute : directory.isAbsolute = true)
    (pathAbsolute : path.isAbsolute = true) :
    (directory.join ⟨path.importSpecifier directory⟩).normalize = path.normalize := by
  rw [normalize, normalize, normalComponents_join_importSpecifier directoryAbsolute pathAbsolute]

/-- Written as an import specifier for a directory, a path of text is relative to that directory and is
found from there again. -/
theorem importSpecifier_leads_back (directoryAbsolute : directory.isAbsolute = true)
    (pathAbsolute : path.isAbsolute = true) :
    ((∃ rest, path.importSpecifier directory = ['.', '/'] ++ rest) ∨
        ∃ rest, path.importSpecifier directory = ['.', '.', '/'] ++ rest) ∧
      (directory.join ⟨path.importSpecifier directory⟩).normalize = path.normalize :=
  ⟨specifierBy_begins id path directory,
    normalize_join_importSpecifier directoryAbsolute pathAbsolute⟩

/-- A path made absolute against an absolute directory is absolute. -/
theorem isAbsolute_absolutize (path : Path) (isAbsolute : directory.isAbsolute = true) :
    (path.absolutize directory).isAbsolute = true := by
  rw [absolutize]
  split
  next absolute => exact isAbsolute_normalize absolute
  next => exact isAbsolute_normalize (isAbsolute_join path isAbsolute)

end Path

end ImportMeter
