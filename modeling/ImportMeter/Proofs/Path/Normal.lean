/-
This file proves what folding the dots makes of a path: a form in which nothing is left to fold, and
which stands for the path wherever more is joined to it.
-/
import ImportMeter.Proofs.Path

namespace ImportMeter.Path

variable {path other : Path} {component : Component} {read names components : List Component}

/-- What has been read of a path before its first piece. -/
def start (path : Path) : List Component := if path.isAbsolute then [.root] else []

/-- A dot that begins a relative path adds nothing, so the root of a path and its pieces are all that
is folded. -/
theorem foldl_push_components (path : Path) :
    path.components.foldl push [] = (behindSlash path.letters).foldl push path.start := by
  by_cases isAbsolute : path.isAbsolute = true
  · rw [components_of_isAbsolute isAbsolute, start, if_pos isAbsolute]
    rfl
  · obtain ⟨first, rest, split⟩ :=
      List.exists_cons_of_ne_nil (Text.splitOn_ne_nil '/' path.letters)
    rw [Path.components, behindSlash, start, if_neg isAbsolute, split]
    simp only [isAbsolute, Bool.false_eq_true, if_false, List.foldl_append]
    split
    next dot =>
      obtain rfl := dot
      rfl
    next =>
      cases component : componentOf? first with
      | none => rw [List.filterMap_cons_none component]; rfl
      | some => rw [List.filterMap_cons_some component]; rfl

theorem normalComponents_eq (path : Path) :
    path.normalComponents = ((behindSlash path.letters).foldl push path.start).reverse := by
  rw [normalComponents, foldl_push_components]

/-! ### Components without dots -/

/-- True if the components read so far are names behind steps upwards; the last comes first. -/
def IsClimbing (read : List Component) : Prop :=
  ∃ (names : List Component) (count : Nat), read = names ++ List.replicate count .parent ∧
    ∀ component ∈ names, component.IsName

theorem push_parent_replicate (count : Nat) :
    push (List.replicate count .parent) .parent = List.replicate (count + 1) .parent := by
  cases count <;> rfl

theorem IsClimbing.push (climbing : IsClimbing read) (isPiece : component.IsPiece) :
    IsClimbing (push read component) := by
  obtain ⟨names, count, rfl, areNames⟩ := climbing
  rcases isPiece.eq_parent_or_isName with rfl | isName
  · cases names with
    | nil => exact ⟨[], count + 1, push_parent_replicate count, areNames⟩
    | cons first rest =>
        obtain ⟨isName, areNames⟩ := List.forall_mem_cons.mp areNames
        exact ⟨rest, count, push_parent isName, areNames⟩
  · exact ⟨component :: names, count, push_name isName, List.forall_mem_cons.mpr ⟨isName, areNames⟩⟩

theorem IsClimbing.foldl_push (climbing : IsClimbing read)
    (pieces : ∀ component ∈ components, component.IsPiece) :
    IsClimbing (components.foldl Path.push read) := by
  induction components generalizing read with
  | nil => exact climbing
  | cons first rest inductionHypothesis =>
      obtain ⟨isPiece, pieces⟩ := List.forall_mem_cons.mp pieces
      exact inductionHypothesis (climbing.push isPiece) pieces

/-- Steps upwards and names behind them are what folding makes of them. -/
theorem foldl_push_climbing (count : Nat) (areNames : ∀ component ∈ names, component.IsName) :
    (List.replicate count Component.parent ++ names).foldl push [] =
      names.reverse ++ List.replicate count .parent := by
  have upwards : (List.replicate count Component.parent).foldl push [] =
      List.replicate count .parent := by
    induction count with
    | zero => rfl
    | succ count inductionHypothesis =>
        rw [List.replicate_succ', List.foldl_append, inductionHypothesis, List.foldl_cons,
          List.foldl_nil, push_parent_replicate, ← List.replicate_succ']
  rw [List.foldl_append, upwards, foldl_push_names areNames]

theorem isPiece_climbing {count : Nat} (areNames : ∀ component ∈ names, component.IsName) :
    ∀ component ∈ List.replicate count .parent ++ names, component.IsPiece := by
  intro component member
  rcases List.mem_append.mp member with isStep | isName
  · rw [List.eq_of_mem_replicate isStep]
    exact Component.isPiece_parent
  · exact (areNames component isName).toIsPiece

/-- What a relative path is without dots: names behind steps upwards. -/
theorem normalComponents_of_relative (relative : path.isAbsolute = false) :
    ∃ (count : Nat) (names : List Component),
      path.normalComponents = List.replicate count .parent ++ names ∧
        ∀ component ∈ names, component.IsName := by
  have nothing : IsClimbing path.start := by
    rw [start, relative]
    exact ⟨[], 0, rfl, List.forall_mem_nil _⟩
  have pieces : ∀ component ∈ behindSlash path.letters, component.IsPiece :=
    fun _ => isPiece_of_mem_behindSlash
  obtain ⟨names, count, folded, areNames⟩ := nothing.foldl_push pieces
  refine ⟨count, names.reverse, ?_, fun component member =>
    areNames component (List.mem_reverse.mp member)⟩
  rw [normalComponents_eq, folded, List.reverse_append, List.reverse_replicate]

/-- A piece between slashes is not empty, and no lone dot. -/
theorem Component.IsPiece.not_idle (isPiece : component.IsPiece) :
    component.letters ≠ [] ∧ component.letters ≠ ['.'] := by
  have own := isPiece.isOwn
  refine ⟨fun empty => ?_, fun dot => ?_⟩
  · rw [empty] at own
    cases own
  · rw [dot] at own
    cases own

/-- Pieces make up a relative path, and are read back from it. -/
theorem ofComponents_pieces (filled : components ≠ [])
    (pieces : ∀ component ∈ components, component.IsPiece) :
    (ofComponents components).isAbsolute = false ∧
      (ofComponents components).components = components := by
  obtain ⟨first, rest, rfl⟩ := List.exists_cons_of_ne_nil filled
  obtain ⟨isPiece, _⟩ := List.forall_mem_cons.mp pieces
  have letters : (ofComponents (first :: rest)).letters =
      Text.joinWith ['/'] ((first :: rest).map Component.letters) := by
    cases first with
    | root => exact absurd isPiece.slashless (by decide)
    | _ => rfl
  have free : ∀ piece ∈ (first :: rest).map Component.letters, '/' ∉ piece := by
    intro piece member
    obtain ⟨component, inside, rfl⟩ := List.mem_map.mp member
    exact (pieces component inside).slashless
  have some : (first :: rest).map Component.letters ≠ [] := List.cons_ne_nil _ _
  have split : Text.splitOn '/' (ofComponents (first :: rest)).letters =
      first.letters :: rest.map Component.letters := by
    rw [letters, Text.splitOn_joinWith some free, List.map_cons]
  have relative : (ofComponents (first :: rest)).isAbsolute = false := by
    refine Bool.eq_false_iff.mpr fun isAbsolute => isPiece.not_idle.1 ?_
    obtain ⟨behind, begins⟩ := isAbsolute_iff.mp isAbsolute
    rw [begins, Text.splitOn, if_pos rfl] at split
    exact (List.cons.inj split).1.symm
  have read := behindSlash_joinWith pieces
  rw [← letters, behindSlash, split, List.filterMap_cons_some isPiece.isOwn] at read
  refine ⟨relative, ?_⟩
  rw [Path.components, split]
  simp only [relative, Bool.false_eq_true, if_false, if_neg isPiece.not_idle.2, isPiece.isOwn]
  exact read

/-! ### The folded form -/

/-- A path in which nothing is left to fold, spelled without a slash too many: names below the root,
names behind steps upwards, or a lone dot. -/
structure IsCanonical (path : Path) : Prop where
  spelled : path = ofComponents path.components
  folded :
    (∃ names : List Component, path.components = .root :: names ∧
      ∀ component ∈ names, component.IsName) ∨
    (∃ (count : Nat) (names : List Component),
      path.components = List.replicate count .parent ++ names ∧
        ∀ component ∈ names, component.IsName) ∨
    path.components = [.current]

/-- A relative path without dots: a lone dot is left where there are no components. -/
theorem normalize_of_relative (relative : path.isAbsolute = false) :
    path.normalize.isAbsolute = false ∧ IsCanonical path.normalize := by
  obtain ⟨count, names, normal, areNames⟩ := normalComponents_of_relative relative
  rw [normalize, normal]
  by_cases filled : List.replicate count Component.parent ++ names = []
  · rw [filled]
    exact ⟨rfl, rfl, .inr (.inr rfl)⟩
  · obtain ⟨stillRelative, read⟩ := ofComponents_pieces filled (isPiece_climbing areNames)
    exact ⟨stillRelative, by rw [read], .inr (.inl ⟨count, names, read, areNames⟩)⟩

/-- A path stays absolute, or relative. -/
theorem isAbsolute_normalize_eq (path : Path) : path.normalize.isAbsolute = path.isAbsolute := by
  cases isAbsolute : path.isAbsolute with
  | true => exact isAbsolute_normalize isAbsolute
  | false => exact (normalize_of_relative isAbsolute).1

theorem isCanonical_normalize (path : Path) : IsCanonical path.normalize := by
  cases isAbsolute : path.isAbsolute with
  | true =>
      obtain ⟨names, normal, _, areNames⟩ := normalComponents_of_isAbsolute isAbsolute
      have read := components_normalize isAbsolute
      exact ⟨by rw [read]; rfl, .inl ⟨names, read.trans normal, areNames⟩⟩
  | false => exact (normalize_of_relative isAbsolute).2

/-- Where nothing is left to fold, folding leaves the path as it is. -/
theorem IsCanonical.normalize_eq (isCanonical : IsCanonical path) : path.normalize = path := by
  obtain ⟨spelled, ⟨names, read, areNames⟩ | ⟨count, names, read, areNames⟩ | read⟩ := isCanonical
  · have root : push [] .root = [.root] := rfl
    rw [normalize, normalComponents, read, List.foldl_cons, root, foldl_push_names areNames,
      List.reverse_append, List.reverse_reverse, List.reverse_singleton, List.singleton_append,
      ← read, ← spelled]
  · rw [normalize, normalComponents, read, foldl_push_climbing count areNames, List.reverse_append,
      List.reverse_reverse, List.reverse_replicate, ← read, ← spelled]
  · rw [spelled, read]
    rfl

theorem normalize_eq_self_iff : path.normalize = path ↔ IsCanonical path :=
  ⟨fun same => same ▸ isCanonical_normalize path, IsCanonical.normalize_eq⟩

/-! ### Joined paths -/

/-- What is folded is read again as it is. -/
theorem foldl_push_normalize (path : Path) :
    path.normalize.components.foldl push [] = path.components.foldl push [] := by
  have backwards : path.components.foldl push [] = path.normalComponents.reverse := by
    rw [normalComponents, List.reverse_reverse]
  rw [backwards]
  cases isAbsolute : path.isAbsolute with
  | true =>
      obtain ⟨names, normal, _, areNames⟩ := normalComponents_of_isAbsolute isAbsolute
      have root : push [] .root = [.root] := rfl
      rw [components_normalize isAbsolute, normal, List.foldl_cons, root,
        foldl_push_names areNames, List.reverse_cons]
  | false =>
      obtain ⟨count, names, normal, areNames⟩ := normalComponents_of_relative isAbsolute
      rw [normalize, normal]
      by_cases filled : List.replicate count Component.parent ++ names = []
      · rw [filled]
        rfl
      · rw [(ofComponents_pieces filled (isPiece_climbing areNames)).2,
          foldl_push_climbing count areNames, List.reverse_append, List.reverse_replicate]

/-- A path joined behind another begins where that one begins. -/
theorem isAbsolute_join_of_relative (relative : other.isAbsolute = false) :
    (path.join other).isAbsolute = path.isAbsolute := by
  cases letters : path.letters with
  | nil =>
      have join : path.join other = other := by
        rw [Path.join, relative, letters]
        rfl
      rw [join, relative, isAbsolute, letters]
      rfl
  | cons first rest =>
      rw [join, relative, isAbsolute, isAbsolute, letters]
      simp only [Bool.false_eq_true, if_false]
      split <;> rfl

/-- What is joined to a path is folded behind what has been read of the path. -/
theorem foldl_push_join (relative : other.isAbsolute = false) :
    (path.join other).components.foldl push [] =
      (behindSlash other.letters).foldl push (path.components.foldl push []) := by
  rw [foldl_push_components, foldl_push_components, behindSlash_join relative, List.foldl_append,
    start, start, isAbsolute_join_of_relative relative]

/-- A path may be folded before more is joined to it. -/
theorem normalize_join (path other : Path) :
    (path.join other).normalize = (path.normalize.join other).normalize := by
  cases absolute : other.isAbsolute with
  | true => rw [join, join, if_pos absolute, if_pos absolute]
  | false =>
      rw [normalize, normalComponents, foldl_push_join absolute, ← foldl_push_normalize path,
        ← foldl_push_join absolute]
      rfl

/-- Under the root no step upwards is left. -/
theorem parent_notMem_normalize (isAbsolute : path.isAbsolute = true) :
    .parent ∉ path.normalize.components := by
  obtain ⟨names, normal, _, areNames⟩ := normalComponents_of_isAbsolute isAbsolute
  rw [components_normalize isAbsolute, normal, List.mem_cons, not_or]
  exact ⟨nofun, fun member => (areNames _ member).down rfl⟩

/-- Folding the dots brings every path into a form that is folded already, absolute if the path was,
and changes nothing about what joined paths lead to. So what is joined to an absolute path stays
below the root. -/
theorem normalize_canonical (path : Path) :
    IsCanonical path.normalize ∧ path.normalize.normalize = path.normalize ∧
      path.normalize.isAbsolute = path.isAbsolute ∧
      (∀ other, (path.join other).normalize = (path.normalize.join other).normalize) ∧
      (path.isAbsolute = true → ∀ other, .parent ∉ (path.join other).normalize.components) :=
  ⟨isCanonical_normalize path, (isCanonical_normalize path).normalize_eq,
    isAbsolute_normalize_eq path, normalize_join path,
    fun isAbsolute other => parent_notMem_normalize (isAbsolute_join other isAbsolute)⟩

/-- Steps that go further up than there are names, and a path of which nothing but a dot is left. -/
theorem normalize_canonical_upwards :
    let rooted : Path := ⟨"/a/./../../b".toList⟩
    let relative : Path := ⟨"a//../..".toList⟩
    let nowhere : Path := ⟨"./a/..".toList⟩
    let other : Path := ⟨"../../c".toList⟩
    rooted.isAbsolute = true ∧ .parent ∉ (rooted.join other).normalize.components ∧
      rooted.normalize = ⟨"/b".toList⟩ ∧ (rooted.normalize.join other).normalize = ⟨"/c".toList⟩ ∧
      relative.normalize = ⟨"..".toList⟩ ∧
      (relative.join other).normalize = (relative.normalize.join other).normalize ∧
      (relative.join other).normalize = ⟨"../../../c".toList⟩ ∧
      nowhere.normalize = ⟨".".toList⟩ ∧
      (nowhere.join other).normalize = (nowhere.normalize.join other).normalize := by
  intro rooted relative nowhere other
  have absolute : rooted.isAbsolute = true := by decide +kernel
  have stays := (normalize_canonical rooted).2.2.2.2 absolute other
  have fromRelative := (normalize_canonical relative).2.2.2.1 other
  have fromNowhere := (normalize_canonical nowhere).2.2.2.1 other
  exact ⟨absolute, stays, by decide +kernel, by decide +kernel, by decide +kernel, fromRelative,
    by decide +kernel, by decide +kernel, fromNowhere⟩

end ImportMeter.Path
