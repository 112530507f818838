/-
This file compares two readings of a module specifier, the one at run time and the one that finds
the instrumentation import, and both with the resolution of relative references in URLs. All of
them take a path apart at its slashes.
-/
import ImportMeter.Proofs.Location
import ImportMeter.Proofs.Path.Parent
import ImportMeter.Script.Grammar
import ImportMeter.Script.Import
import ImportMeter.Specifier

namespace ImportMeter

namespace Specifier

open Script

variable {file directory target : Path} {source base reference : Text}

/-- True for a specifier that names a file by its path, and not a package. -/
def namesPath (source : Text) : Bool := source.head? = some '.' || source.head? = some '/'

/-- How the path that a source is read as is written in a specifier. -/
def asPath (source : Text) : Text :=
  Text.escaped (if namesPath source then source else ['.', '/'] ++ source)

/-- A path specifier without escapes and without a query stands for itself. -/
def IsPlain (source : Text) : Prop := (withoutQuery source).percentDecode = source

instance : DecidablePred IsPlain := fun source =>
  inferInstanceAs (Decidable ((withoutQuery source).percentDecode = source))

theorem isAbsolute_of_not_namesPath (isPackage : namesPath source = false) :
    Path.isAbsolute ⟨source⟩ = false := by
  rw [namesPath, Bool.or_eq_false_iff] at isPackage
  exact isPackage.2

theorem withoutQuery_escaped (text : Text) : withoutQuery text.escaped = text.escaped := by
  have named := withoutQuery_append (Text.encodes_escaped text).plain
    (fun letter (absent : List.head? [] = some letter) => nomatch absent)
  rwa [List.append_nil] at named

theorem locationPath?_of_isAbsolute (absolute : file.isAbsolute = true)
    (noScheme : file.letters.contains [':', '/', '/'] = false) :
    locationPath? file.letters = some file := by
  obtain ⟨rest, letters⟩ := Path.isAbsolute_iff.mp absolute
  have noFront : file.letters.dropFront? fileScheme = none := by
    rw [letters]
    rfl
  rw [locationPath?, noFront]
  simp only [noScheme, Bool.false_eq_true, if_false]

/-- At run time, a specifier is seen from the directory of the importing file. -/
theorem resolveRelative?_of_parent (absolute : file.isAbsolute = true)
    (noScheme : file.letters.contains [':', '/', '/'] = false)
    (parent : file.parent? = some directory) :
    resolveRelative? source file.letters =
      some (directory.join ⟨(withoutQuery source).percentDecode⟩).normalize := by
  rw [resolveRelative?, locationPath?_of_isAbsolute absolute noScheme, Option.map_some, parent]
  rfl

/-- The instrumentation import is found by reading the source as a path, with or without a dot in
front, which holds its letters as they are. So the reading at run time agrees with it on the path
specifiers without a query and without escapes. -/
theorem resolvesTo_iff_resolveRelative (binding : ImportBinding) (target : Path)
    (absolute : file.isAbsolute = true)
    (noScheme : file.letters.contains [':', '/', '/'] = false)
    (parent : file.parent? = some directory) :
    (binding.resolvesTo directory target = true ↔
      resolveRelative? (asPath binding.source) file.letters = some target.normalize) ∧
    (namesPath binding.source = true → IsPlain binding.source →
      (binding.resolvesTo directory target = true ↔
        resolveRelative? binding.source file.letters = some target.normalize)) := by
  have directoryAbsolute : directory.isAbsolute = true := by
    have := (Path.behindSlash_parent absolute).1
    rwa [parent] at this
  rw [resolveRelative?_of_parent absolute noScheme parent,
    resolveRelative?_of_parent absolute noScheme parent, Option.some_inj, Option.some_inj,
    ImportBinding.resolvesTo, decide_eq_true_eq]
  refine ⟨?_, fun _ plain => by rw [plain]⟩
  rw [asPath, withoutQuery_escaped, (Text.encodes_escaped _).percentDecode]
  split
  next => exact Iff.rfl
  next isPackage =>
    rw [Path.normalize_join_dot directoryAbsolute
      (isAbsolute_of_not_namesPath (Bool.eq_false_of_not_eq_true isPackage))]

/-- The declaration that a script begins with. -/
def leadingImport? (source : Text) : Option ImportBinding :=
  (parse? source).bind fun tree => (importsOf tree).head?

theorem resolvesTo_iff_resolveRelative_sibling :
    ∃ binding, leadingImport? "import m from './m.js';".toList = some binding ∧
      binding.source = "./m.js".toList ∧
      (binding.resolvesTo ⟨"/a".toList⟩ ⟨"/a/m.js".toList⟩ = true ↔
        resolveRelative? "./m.js".toList "/a/b.js".toList = some ⟨"/a/m.js".toList⟩) := by
  obtain ⟨binding, found, source⟩ : ∃ binding,
      leadingImport? "import m from './m.js';".toList = some binding ∧
        binding.source = "./m.js".toList := by
    rw [← Option.map_eq_some_iff (f := ImportBinding.source)]
    decide +kernel
  have agree := (@resolvesTo_iff_resolveRelative ⟨"/a/b.js".toList⟩ ⟨"/a".toList⟩ binding
    ⟨"/a/m.js".toList⟩ (by decide +kernel) (by decide +kernel) (by decide +kernel)).2
  rw [source] at agree
  exact ⟨binding, found, source, agree (by decide +kernel) (by decide +kernel)⟩

/-- A package of the right name is taken for the module. -/
theorem resolvesTo_packageName :
    ¬ ∀ (binding : ImportBinding) (file directory target : Path), file.isAbsolute = true →
      file.letters.contains [':', '/', '/'] = false → file.parent? = some directory →
      target.isAbsolute = true →
      (binding.resolvesTo directory target = true ↔
        namesPath binding.source = true ∧
          resolveRelative? binding.source file.letters = some target.normalize) := by
  intro claim
  obtain ⟨binding, found, source⟩ : ∃ binding,
      leadingImport? "import m from 'm.js';".toList = some binding ∧
        binding.source = "m.js".toList := by
    rw [← Option.map_eq_some_iff (f := ImportBinding.source)]
    decide +kernel
  have agree := claim binding ⟨"/a/b.js".toList⟩ ⟨"/a".toList⟩ ⟨"/a/m.js".toList⟩
    (by decide +kernel) (by decide +kernel) (by decide +kernel) (by decide +kernel)
  rw [ImportBinding.resolvesTo, source] at agree
  exact absurd agree (by decide +kernel)

/-! ### References in URLs -/

/-- Reads one more segment of a path, behind those read before, the last of which comes first. -/
def enter (read : List Text) (segment : Text) : List Text :=
  if segment = ['.'] then read
  else if segment = ['.', '.'] then read.tail
  else segment :: read

/-- Removes the dot segments. A path that ends in one ends in a slash then. -/
def removeDots (segments : List Text) : List Text :=
  (segments.foldl enter []).reverse ++
    if segments.getLast? = some ['.'] ∨ segments.getLast? = some ['.', '.'] then [[]] else []

/-- The segments behind the first slash of a path. -/
def segmentsOf (path : Text) : List Text := (path.splitOn '/').tail

/-- The segments that a relative reference leads to: what follows the last slash of the base gives
way to the reference. -/
def resolveReference (base reference : Text) : List Text :=
  removeDots ((removeDots (segmentsOf base)).dropLast ++ reference.splitOn '/')

/-- The path of some segments. Empty ones stand between slashes and do not count. -/
def pathOf (segments : List Text) : Path :=
  ⟨'/' :: Text.joinWith ['/'] (segments.filter (· ≠ []))⟩

/-- True if going up always leaves a name or stays at the root. -/
def climbsFromNames (read : List Text) : List Text → Bool
  | [] => true
  | segment :: rest =>
    (segment ≠ ['.', '.'] || read.head? ≠ some []) && climbsFromNames (enter read segment) rest

/-- True for a segment that names a file or a directory. -/
def IsName (segment : Text) : Prop := segment ≠ [] ∧ segment ≠ ['.'] ∧ segment ≠ ['.', '.']

instance : DecidablePred IsName := fun segment =>
  inferInstanceAs (Decidable (segment ≠ [] ∧ segment ≠ ['.'] ∧ segment ≠ ['.', '.']))

/-- The segments that lead somewhere: names, and two dots. -/
def steps (segments : List Text) : List Text :=
  segments.filter fun segment => segment ≠ [] && segment ≠ ['.']

/-- The segments that are left where empty ones and lone dots go first, then the last of the base,
and two dots in the end. -/
def resolveSteps (base reference : Text) : List Text :=
  (((steps (segmentsOf base)).dropLast ++ steps (reference.splitOn '/')).foldl enter []).reverse

variable {read segments : List Text} {segment : Text}

/-- What has been read is made of segments, and holds no dots. -/
theorem mem_foldl_enter (member : segment ∈ segments.foldl enter read) :
    segment ∈ read ∨ segment ∈ segments ∧ segment ≠ ['.'] ∧ segment ≠ ['.', '.'] := by
  induction segments generalizing read with
  | nil => exact .inl member
  | cons first rest inductionHypothesis =>
      rcases inductionHypothesis member with inRead | ⟨inRest, noDots⟩
      · rw [enter] at inRead
        split at inRead
        next => exact .inl inRead
        split at inRead
        next => exact .inl (List.mem_of_mem_tail inRead)
        next noDot noDots =>
          rcases List.mem_cons.mp inRead with rfl | inRead
          · exact .inr ⟨List.mem_cons_self, noDot, noDots⟩
          · exact .inl inRead
      · exact .inr ⟨List.mem_cons_of_mem _ inRest, noDots⟩

/-- Segments without dots are read as they are. -/
theorem foldl_enter_reverse (noDots : ∀ segment ∈ read, segment ≠ ['.'] ∧ segment ≠ ['.', '.']) :
    read.reverse.foldl enter [] = read := by
  induction read with
  | nil => rfl
  | cons first rest inductionHypothesis =>
      obtain ⟨noDot, noDots⟩ := List.forall_mem_cons.mp noDots
      rw [List.reverse_cons, List.foldl_append, inductionHypothesis noDots, List.foldl_cons,
        List.foldl_nil, enter, if_neg noDot.1, if_neg noDot.2]

/-- The names below the root among the segments read. -/
def namesOf (read : List Text) : List Path.Component :=
  (read.filter (· ≠ [])).map .normal ++ [.root]

theorem enter_namesOf (climbs : segment = ['.', '.'] → read.head? ≠ some []) :
    (Path.componentOf? segment).toList.foldl Path.push (namesOf read) =
      namesOf (enter read segment) := by
  rw [Path.componentOf?, enter]
  by_cases noDot : segment = ['.']
  · simp [noDot]
  by_cases noDots : segment = ['.', '.']
  · obtain rfl := noDots
    cases read with
    | nil => rfl
    | cons name rest =>
        have filled : name ≠ [] := fun empty => climbs rfl (congrArg some empty)
        simp [namesOf, filled, Path.push]
  by_cases empty : segment = []
  · simp [empty, namesOf]
  · simp [noDot, noDots, empty, namesOf, Path.push]

/-- As long as going up leaves names, empty segments do not matter. -/
theorem foldl_push_namesOf (climbs : climbsFromNames read segments = true) :
    (segments.filterMap Path.componentOf?).foldl Path.push (namesOf read) =
      namesOf (segments.foldl enter read) := by
  induction segments generalizing read with
  | nil => rfl
  | cons segment segments inductionHypothesis =>
      rw [climbsFromNames, Bool.and_eq_true, Bool.or_eq_true] at climbs
      obtain ⟨up, others⟩ := climbs
      have first : (Path.componentOf? segment).toList.foldl Path.push (namesOf read) =
          namesOf (enter read segment) :=
        enter_namesOf fun isUp => by simpa [isUp] using up
      rw [List.foldl_cons, ← inductionHypothesis others, ← first, ← List.foldl_append]
      cases component : Path.componentOf? segment <;> simp [component]

theorem climbsFromNames_of_notMem (filled : [] ∉ segments) (readFilled : [] ∉ read) :
    climbsFromNames read segments = true := by
  induction segments generalizing read with
  | nil => rfl
  | cons segment segments inductionHypothesis =>
      rw [List.mem_cons, not_or] at filled
      have notEmpty : read.head? ≠ some [] := fun same => readFilled (List.mem_of_head? same)
      have stillFilled : [] ∉ enter read segment := by
        intro (member : [] ∈ [segment].foldl enter read)
        rcases mem_foldl_enter member with inRead | ⟨isSegment, _⟩
        · exact readFilled inRead
        · exact filled.1 (List.mem_singleton.mp isSegment)
      rw [climbsFromNames, inductionHypothesis filled.2 stillFilled]
      simp [notEmpty]

theorem ofComponents_namesOf (read : List Text) :
    Path.ofComponents (namesOf read).reverse = pathOf read.reverse := by
  have letters : Path.Component.letters ∘ Path.Component.normal = id := rfl
  rw [namesOf, List.reverse_append, List.reverse_singleton, List.singleton_append,
    Path.ofComponents, pathOf, List.filter_reverse, ← List.map_reverse, List.map_map, letters,
    List.map_id]

/-- What is resolved against a file URL, by components. -/
theorem resolveRelative?_fileScheme (rooted : base.head? = some '/')
    (dotted : reference.head? = some '.') (baseEscapes : base.escaped = base)
    (referenceEscapes : reference.escaped = reference) :
    resolveRelative? reference (fileScheme ++ base) =
      some (Path.ofComponents (((Path.behindSlash base).dropLast ++
        Path.behindSlash reference).foldl Path.push [.root]).reverse) := by
  have plain : ∀ text : Text, text.escaped = text → (withoutQuery text).percentDecode = text := by
    intro text same
    have decoded := (Text.encodes_escaped text).percentDecode
    rwa [← withoutQuery_escaped, same] at decoded
  have absolute : Path.isAbsolute ⟨base⟩ = true := decide_eq_true rooted
  have relative : Path.isAbsolute ⟨reference⟩ = false := by
    rw [Path.isAbsolute, dotted]
    rfl
  have noHost : base.dropFront? localHost = none := by
    obtain ⟨rest, rfl⟩ := List.head?_eq_some_iff.mp rooted
    rfl
  have stillRooted : (withoutQuery base).head? = some '/' := by
    obtain ⟨rest, rfl⟩ := List.head?_eq_some_iff.mp rooted
    rfl
  have located : locationPath? (fileScheme ++ base) = some ⟨base⟩ := by
    rw [locationPath?, Text.dropFront?_eq_some.mpr rfl]
    simp only [noHost, Option.getD_none, stillRooted, if_true, plain base baseEscapes]
  obtain ⟨parentAbsolute, parent⟩ := Path.behindSlash_parent absolute
  have root : Path.push [] .root = [.root] := rfl
  rw [resolveRelative?, located, Option.map_some, plain reference referenceEscapes,
    Path.normalize, Path.normalComponents, Path.components_join parentAbsolute relative, parent,
    List.foldl_cons, root]

/-- What a step stands for. -/
def stepOf (segment : Text) : Path.Component :=
  if segment = ['.', '.'] then .parent else .normal segment

theorem filterMap_componentOf? (segments : List Text) :
    segments.filterMap Path.componentOf? = (steps segments).map stepOf := by
  induction segments with
  | nil => rfl
  | cons segment segments inductionHypothesis =>
      by_cases idle : segment = [] ∨ segment = ['.']
      · rcases idle with rfl | rfl <;> exact inductionHypothesis
      · rw [not_or] at idle
        have component : Path.componentOf? segment = some (stepOf segment) := by
          rw [Path.componentOf?, stepOf]
          simp only [idle.1, idle.2, decide_false, Bool.or_self, Bool.false_eq_true, if_false]
          split <;> rfl
        have isStep : steps (segment :: segments) = segment :: steps segments :=
          List.filter_cons_of_pos (by simp [idle])
        rw [List.filterMap_cons_some component, inductionHypothesis, isStep, List.map_cons]

/-- The last component belongs to the last step. -/
theorem dropLast_filterMap_componentOf? (segments : List Text) :
    (segments.filterMap Path.componentOf?).dropLast =
      (steps segments).dropLast.filterMap Path.componentOf? := by
  have areSteps : steps (steps segments).dropLast = (steps segments).dropLast :=
    List.filter_eq_self.mpr fun segment member =>
      (List.mem_filter.mp ((List.dropLast_subset _) member)).2
  rw [filterMap_componentOf?, filterMap_componentOf?, areSteps, List.map_dropLast]

theorem filterMap_componentOf?_steps (segments : List Text) :
    (steps segments).filterMap Path.componentOf? = segments.filterMap Path.componentOf? := by
  have areSteps : steps (steps segments) = steps segments :=
    List.filter_eq_self.mpr fun segment member => (List.mem_filter.mp member).2
  rw [filterMap_componentOf?, filterMap_componentOf?, areSteps]

theorem notMem_steps : [] ∉ steps segments := by
  simp [steps]

theorem behindSlash_segmentsOf (rooted : base.head? = some '/') :
    Path.behindSlash base = (segmentsOf base).filterMap Path.componentOf? := by
  obtain ⟨rest, rfl⟩ := List.head?_eq_some_iff.mp rooted
  have split : Text.splitOn '/' ('/' :: rest) = [] :: Text.splitOn '/' rest := if_pos rfl
  rw [Path.behindSlash, segmentsOf, split]
  rfl

theorem pathOf_removeDots (segments : List Text) :
    pathOf (removeDots segments) = pathOf (segments.foldl enter []).reverse := by
  rw [pathOf, removeDots, List.filter_append]
  split <;> simp [pathOf]

theorem IsName.removeDots_concat {last : Text} (isName : IsName last) (segments : List Text) :
    (removeDots (segments ++ [last])).dropLast = (segments.foldl enter []).reverse := by
  obtain ⟨_, noDot, noDots⟩ := isName
  rw [removeDots, List.getLast?_concat, List.foldl_append, List.foldl_cons, List.foldl_nil, enter,
    if_neg noDot, if_neg noDots, if_neg (by simp [noDot, noDots]), List.append_nil,
    List.reverse_cons, List.dropLast_concat]

/-- A path specifier seen from a file URL leads where its steps lead from the directory of the last
step of that URL. That is what the resolution of references says where the URL ends in a name and
going up never removes an empty segment. -/
theorem resolveRelative?_resolveReference (rooted : base.head? = some '/')
    (dotted : reference.head? = some '.')
    (baseLetters : '%' ∉ base ∧ '?' ∉ base ∧ '#' ∉ base)
    (referenceLetters : '%' ∉ reference ∧ '?' ∉ reference ∧ '#' ∉ reference) :
    resolveRelative? reference (fileScheme ++ base) = some (pathOf (resolveSteps base reference)) ∧
    (∀ last, (segmentsOf base).getLast? = some last → IsName last →
      climbsFromNames [] ((segmentsOf base).dropLast ++ reference.splitOn '/') = true →
      resolveRelative? reference (fileScheme ++ base) =
        some (pathOf (resolveReference base reference))) := by
  have root : [Path.Component.root] = namesOf [] := rfl
  have behind : Path.behindSlash reference =
      (reference.splitOn '/').filterMap Path.componentOf? := rfl
  rw [resolveRelative?_fileScheme rooted dotted
    (Text.escaped_of_notMem baseLetters.1 baseLetters.2.1 baseLetters.2.2)
    (Text.escaped_of_notMem referenceLetters.1 referenceLetters.2.1 referenceLetters.2.2),
    behindSlash_segmentsOf rooted, behind, root]
  refine ⟨congrArg some ?_, fun last isLast isName climbs => congrArg some ?_⟩
  · have filled : [] ∉ (steps (segmentsOf base)).dropLast ++ steps (reference.splitOn '/') := by
      rw [List.mem_append, not_or]
      exact ⟨fun member => notMem_steps (List.dropLast_subset _ member), notMem_steps⟩
    rw [dropLast_filterMap_componentOf?, ← filterMap_componentOf?_steps (reference.splitOn '/'),
      ← List.filterMap_append, foldl_push_namesOf (climbsFromNames_of_notMem filled List.not_mem_nil),
      ofComponents_namesOf, resolveSteps]
  · obtain ⟨front, split⟩ := List.getLast?_eq_some_iff.mp isLast
    rw [split, List.dropLast_concat] at climbs
    have component : Path.componentOf? last = some (.normal last) := by
      rw [Path.componentOf?, if_neg (by simp [isName.1, isName.2.1]), if_neg isName.2.2]
    have noDots : ∀ segment ∈ front.foldl enter [], segment ≠ ['.'] ∧ segment ≠ ['.', '.'] := by
      intro segment member
      rcases mem_foldl_enter member with inRead | ⟨_, noDots⟩
      · exact absurd inRead List.not_mem_nil
      · exact noDots
    rw [split, List.filterMap_append, List.filterMap_cons_some component, List.filterMap_nil,
      List.dropLast_concat, ← List.filterMap_append, foldl_push_namesOf climbs,
      ofComponents_namesOf, resolveReference, pathOf_removeDots, split, isName.removeDots_concat,
      List.foldl_append, List.foldl_append, foldl_enter_reverse noDots]

theorem resolveRelative?_resolveReference_doubledSlash :
    resolveRelative? "../c/./d.js".toList (fileScheme ++ "/a//b/e.js".toList) =
      some (pathOf (resolveReference "/a//b/e.js".toList "../c/./d.js".toList)) :=
  (resolveRelative?_resolveReference (by decide +kernel) (by decide +kernel) (by decide +kernel)
    (by decide +kernel)).2 "e.js".toList (by decide +kernel) (by decide +kernel)
      (by decide +kernel)

/-- What is dropped of an importer that ends in a slash is its last name. -/
theorem resolveRelative?_directory :
    ¬ ∀ base reference : Text, base.head? = some '/' → reference.head? = some '.' →
      (∀ letter ∈ base ++ reference, letter ∉ ['?', '#', '%', '\\']) →
      resolveRelative? reference (fileScheme ++ base) =
        some (pathOf (resolveReference base reference)) := by
  intro claim
  have resolved := claim "/a/b/".toList "./x".toList (by decide +kernel) (by decide +kernel)
    (by simp)
  exact absurd resolved (by decide +kernel)

end Specifier

end ImportMeter
