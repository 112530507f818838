/-
This file keeps the books of injection: each dynamic import of a script is an argument of the entry point
and left alone, or is replaced by one marked call, or is left alone and reported.
-/
import ImportMeter.Proofs.Instrument.Injection

namespace ImportMeter.Instrument

open Script

/-- The dynamic imports of a script, parents before children. -/
def importPlaces (tree : Tree) : List Place :=
  (Place.preorder tree).filter fun place => isImportCall place.focus

/-- The expressions that a call is given. Comments of every kind are none. -/
def expressions (call : Place) : List Place :=
  match argumentList? call with
  | some list =>
    list.namedChildren.filter fun child => child.kind ≠ .comment && child.kind ≠ .htmlComment
  | none => []

/-- True if a comment in the way of markup stands among the arguments of a call. -/
def HasMarkupComment (call : Place) : Prop :=
  ∃ list, argumentList? call = some list ∧ ∃ child ∈ list.namedChildren, child.kind = .htmlComment

/-- True for an argument in a call of one of some names. -/
def IsArgumentOf (names : List Text) (place : Place) : Prop :=
  ∃ list call name, place.parent? = some list ∧ list.kind = .arguments ∧
    list.parent? = some call ∧ call.kind = .callExpression ∧
      calleeName? call = some name ∧ name ∈ names

/-- True for an argument in a call of one of some names, awaited or not. -/
def IsGuarded (names : List Text) (place : Place) : Prop :=
  IsArgumentOf names place ∨
    ∃ awaiting, place.parent? = some awaiting ∧ awaiting.kind = .awaitExpression ∧
      IsArgumentOf names awaiting

/-- True for a call that is given one expression, a plain string. -/
def IsLiteral (call : Place) : Prop := ∃ path, expressions call = [path] ∧ path.kind = .string

/-- True if an edit puts a marked call in the place of another call. What stands between the parentheses
is kept: all up to the end of the path in front of what is added, the rest behind it. -/
def Replaces (localName marker : Text) (call : Place) (edit : Edit) : Prop :=
  ∃ list path front behind, argumentList? call = some list ∧ expressions call = [path] ∧
    list.text = '(' :: front ++ path.text ++ behind ++ [')'] ∧
    path.start = list.start + 1 + front.length ∧
    edit.range = call.range ∧
    edit.text = localName ++ '(' :: front ++ path.text ++ ", import.meta.url, null, '".toList ++
      marker ++ '\x27' :: behind ++ [')']

/-- The books: to which edit or diagnostic, if to any, each of some dynamic imports comes. -/
inductive Accounted (source localName marker : Text) (names : List Text) :
    List Place → List Edit → List Diagnostic → List Place → Prop where
  | nil : Accounted source localName marker names [] [] [] []
  | guarded {place : Place} {places : List Place} {edits : List Edit}
      {diagnostics : List Diagnostic} {kept : List Place} (isGuarded : IsGuarded names place)
      (others : Accounted source localName marker names places edits diagnostics kept) :
      Accounted source localName marker names (place :: places) edits diagnostics (place :: kept)
  | rewritten {place : Place} {places : List Place} {edit : Edit} {edits : List Edit}
      {diagnostics : List Diagnostic} {kept : List Place} (notGuarded : ¬ IsGuarded names place)
      (literal : IsLiteral place) (withoutMarkup : ¬ HasMarkupComment place)
      (replaces : Replaces localName marker place edit)
      (others : Accounted source localName marker names places edits diagnostics kept) :
      Accounted source localName marker names (place :: places) (edit :: edits) diagnostics kept
  | skipped {place : Place} {places : List Place} {edits : List Edit} {diagnostic : Diagnostic}
      {diagnostics : List Diagnostic} {kept : List Place} (notGuarded : ¬ IsGuarded names place)
      (other : ¬ IsLiteral place ∨ HasMarkupComment place)
      (located : (diagnostic.line, diagnostic.column) = lineAndColumn source place.start)
      (others : Accounted source localName marker names places edits diagnostics kept) :
      Accounted source localName marker names (place :: places) edits (diagnostic :: diagnostics) kept

variable {source localName marker : Text} {names guards : List Text}

/-- The books balance. -/
theorem Accounted.length_eq {places kept : List Place} {edits : List Edit}
    {diagnostics : List Diagnostic}
    (accounted : Accounted source localName marker names places edits diagnostics kept) :
    edits.length + diagnostics.length + kept.length = places.length := by
  induction accounted with
  | nil => rfl
  | guarded => simp only [List.length_cons]; omega
  | rewritten => simp only [List.length_cons]; omega
  | skipped => simp only [List.length_cons]; omega

/-- The code looks for a guard where there is one. -/
theorem isArgumentOfCall_iff (same : ∀ name, guards.contains name = true ↔ name ∈ names)
    (place : Place) : isArgumentOfCall place guards = true ↔ IsArgumentOf names place := by
  rw [isArgumentOfCall, IsArgumentOf]
  cases place.parent? with
  | none => simp
  | some list =>
      cases above : list.parent? with
      | none => simp [above]
      | some call =>
          cases named : calleeName? call with
          | none => simp [above, named]
          | some name => simp [above, named, ← same]

/-- An import is guarded in itself or as what is awaited. -/
theorem isArgumentOfCall_outer_iff (same : ∀ name, guards.contains name = true ↔ name ∈ names)
    (call : Place) (arguments source : Option Place) (count : Nat) :
    isArgumentOfCall (DynamicImport.mk call arguments source count).outer guards = true ↔
      IsGuarded names call := by
  rw [isArgumentOfCall_iff same, DynamicImport.outer, IsGuarded]
  cases parent : call.parent? with
  | none => simp
  | some above =>
      by_cases isAwait : above.kind = .awaitExpression
      · have notArgument : ¬ IsArgumentOf names call := by
          rintro ⟨list, _, _, isParent, isList, _⟩
          rw [parent] at isParent
          cases isParent
          rw [isAwait] at isList
          cases isList
        simp [isAwait, notArgument]
      · simp [isAwait]

/-- The expressions are the arguments other than comments in the way of markup. -/
theorem expressions_eq (call : Place) :
    expressions call = (argumentsOf call).filter (·.kind ≠ .htmlComment) := by
  rw [expressions, argumentsOf]
  cases argumentList? call with
  | none => rfl
  | some list =>
      dsimp only
      rw [List.filter_filter]
      refine List.filter_congr fun child _ => ?_
      simp [Bool.and_comm]

theorem hasMarkupComment_iff (call : Place) :
    HasMarkupComment call ↔ ∃ child ∈ argumentsOf call, child.kind = .htmlComment := by
  rw [HasMarkupComment, argumentsOf]
  cases argumentList? call with
  | none => simp
  | some list =>
      simp only [Option.some.injEq, exists_eq_left', List.mem_filter, decide_eq_true_eq]
      constructor
      · rintro ⟨child, member, isMarkup⟩
        exact ⟨child, ⟨member, by simp [isMarkup]⟩, isMarkup⟩
      · rintro ⟨child, ⟨member, _⟩, isMarkup⟩
        exact ⟨child, member, isMarkup⟩

/-- What the code asks of the arguments of an import that it rewrites. -/
theorem argumentsOf_eq_path_iff (call path : Place) :
    argumentsOf call = [path] ∧ path.kind = .string ↔
      expressions call = [path] ∧ path.kind = .string ∧ ¬ HasMarkupComment call := by
  rw [expressions_eq, hasMarkupComment_iff]
  constructor
  · rintro ⟨given, isString⟩
    rw [given]
    simp [isString]
  · rintro ⟨given, isString, without⟩
    refine ⟨?_, isString⟩
    rw [← given, List.filter_eq_self.mpr]
    intro child member
    simpa using fun isMarkup => without ⟨child, member, isMarkup⟩

/-- An import of a path between parentheses is replaced by a call that keeps what stands there. -/
theorem replaces_markedCall (localName marker : Text) {place path : Place}
    {dynamicImport : DynamicImport} (found : DynamicImport.ofPlace? place = some dynamicImport)
    (wellFormed : place.focus.WellFormed) (stands : Text.StandsAt source place.start place.text)
    (given : argumentsOf place = [path]) (expressed : expressions place = [path]) :
    Replaces localName marker place
      ⟨place.range, markedCall source localName marker dynamicImport path⟩ := by
  obtain ⟨rfl, _⟩ := dynamicImport_eq_some found
  obtain ⟨list, own, front, behind, isList, bracketed, _, _, _, pathStart, kept, trail⟩ :=
    exists_between wellFormed stands given
  refine ⟨list, path, Tree.textOfAll front, Tree.textOfAll behind, isList, expressed, ?_, ?_, rfl, ?_⟩
  · rw [Place.text, bracketed]
    simp [Place.text]
  · rw [pathStart, Tree.widthOfAll_eq]
  · simp only [markedCall, isList, kept, trail]
    simp [Place.text]

theorem isNone_stringValue?_iff (place : Place) :
    (stringValue? place.focus).isNone = true ↔ place.kind ≠ .string := by
  rw [stringValue?, Place.kind]
  split <;> simp_all

/-- An import that is not guarded is rewritten if a plain string is all it is given. -/
theorem decide_of_path (localName marker : Text) {place path : Place} {dynamicImport : DynamicImport}
    (found : DynamicImport.ofPlace? place = some dynamicImport)
    (notArgument : ¬ isArgumentOfCall dynamicImport.outer guards = true)
    (given : argumentsOf place = [path]) (isString : path.kind = .string) :
    decide source localName marker guards dynamicImport =
      .rewritten ⟨place.range, markedCall source localName marker dynamicImport path⟩ := by
  obtain ⟨rfl, _⟩ := dynamicImport_eq_some found
  rw [decide, if_neg notArgument]
  simp only [given, List.head?_cons]
  rw [if_neg (by rw [isNone_stringValue?_iff]; simpa using isString), if_neg (by simp)]

/-- Otherwise it is skipped, and reported where it stands. -/
theorem decide_of_other (localName marker : Text) {place : Place} {dynamicImport : DynamicImport}
    (found : DynamicImport.ofPlace? place = some dynamicImport)
    (notArgument : ¬ isArgumentOfCall dynamicImport.outer guards = true)
    (other : ∀ path, argumentsOf place = [path] → path.kind ≠ .string) :
    ∃ diagnostic, decide source localName marker guards dynamicImport = .skipped diagnostic ∧
      (diagnostic.line, diagnostic.column) = lineAndColumn source place.start := by
  obtain ⟨rfl, _⟩ := dynamicImport_eq_some found
  rw [decide, if_neg notArgument]
  rcases given : argumentsOf place with _ | ⟨path, _ | ⟨second, others⟩⟩
  · exact ⟨_, rfl, rfl⟩
  · simp only [List.head?_cons]
    rw [if_pos ((isNone_stringValue?_iff path).mpr (other path given))]
    exact ⟨_, rfl, rfl⟩
  · simp only [List.head?_cons, List.length_cons]
    split
    next => exact ⟨_, rfl, rfl⟩
    next =>
      rw [if_pos (by omega)]
      exact ⟨_, rfl, rfl⟩

/-- The code's decision on an import is the entry in the books. -/
theorem decide_cases (localName marker : Text)
    (same : ∀ name, guards.contains name = true ↔ name ∈ names) {place : Place}
    {dynamicImport : DynamicImport} (found : DynamicImport.ofPlace? place = some dynamicImport)
    (wellFormed : place.focus.WellFormed) (stands : Text.StandsAt source place.start place.text) :
    (IsGuarded names place ∧ decide source localName marker guards dynamicImport = .guarded) ∨
      (¬ IsGuarded names place ∧ IsLiteral place ∧ ¬ HasMarkupComment place ∧
        ∃ edit, decide source localName marker guards dynamicImport = .rewritten edit ∧
          Replaces localName marker place edit) ∨
      (¬ IsGuarded names place ∧ (¬ IsLiteral place ∨ HasMarkupComment place) ∧
        ∃ diagnostic, decide source localName marker guards dynamicImport = .skipped diagnostic ∧
          (diagnostic.line, diagnostic.column) = lineAndColumn source place.start) := by
  have outer : isArgumentOfCall dynamicImport.outer guards = true ↔ IsGuarded names place := by
    obtain ⟨rfl, _⟩ := dynamicImport_eq_some found
    exact isArgumentOfCall_outer_iff same _ _ _ _
  by_cases guarded : IsGuarded names place
  · exact .inl ⟨guarded, by rw [decide, if_pos (outer.mpr guarded)]⟩
  · have notArgument := outer.not.mpr guarded
    by_cases plain : ∃ path, argumentsOf place = [path] ∧ path.kind = .string
    · obtain ⟨path, given, isString⟩ := plain
      obtain ⟨expressed, _, without⟩ := (argumentsOf_eq_path_iff place path).mp ⟨given, isString⟩
      exact .inr (.inl ⟨guarded, ⟨path, expressed, isString⟩, without, _,
        decide_of_path localName marker found notArgument given isString,
        replaces_markedCall localName marker found wellFormed stands given expressed⟩)
    · have other : ¬ IsLiteral place ∨ HasMarkupComment place := by
        refine or_iff_not_imp_right.mpr fun without => ?_
        rintro ⟨path, expressed, isString⟩
        exact plain ⟨path, (argumentsOf_eq_path_iff place path).mpr ⟨expressed, isString, without⟩⟩
      exact .inr (.inr ⟨guarded, other, decide_of_other localName marker found notArgument
        fun path given isString => plain ⟨path, given, isString⟩⟩)

/-- An import begins with the keyword. -/
theorem shape_of_isImportCall {tree : Tree} (isImport : isImportCall tree = true)
    (wellFormed : tree.WellFormed) :
    ∃ role rest, tree = .node role .callExpression
      (.leaf (some .callee) .importWord Word.importWord :: rest) := by
  have isNode := wellFormed.eq_node (by rw [kind_of_isImportCall isImport]; rfl)
  rw [kind_of_isImportCall isImport] at isNode
  rw [isNode] at isImport wellFormed ⊢
  obtain ⟨callee, middle, list, shape, isCallee, _⟩ := wellFormed.nodeShape.callExpression rfl
  rw [shape] at isImport wellFormed ⊢
  exact ⟨_, middle ++ [list], by rw [List.cons_append, callee_of_isImportCall isImport isCallee
    (wellFormed.children callee List.mem_cons_self)]⟩

/-- Each import begins behind where the one before it begins. -/
theorem imports_increasing {tree : Tree} {above : List Frame} {start : Nat}
    (wellFormed : tree.WellFormed) (stands : Text.StandsAt source start tree.text) :
    ((Place.parentsFirst tree above start).filter fun place => isImportCall place.focus).Pairwise
      fun place later => place.start < later.start := by
  induction tree using Tree.childInduction generalizing above start with
  | leaf role kind letters =>
      rw [Place.parentsFirst]
      exact (List.pairwise_singleton _ _).filter _
  | node role kind children childHypothesis =>
      -- An import among the children takes up room, so what comes behind it begins behind its beginning.
      have among : ∀ (trees left : List Tree) (start : Nat), (∀ tree ∈ trees, tree ∈ children) →
          Text.StandsAt source start (Tree.textOfAll trees) →
          ((Place.parentsFirst.amongChildren role kind above left start trees).filter fun place =>
            isImportCall place.focus).Pairwise fun place later => place.start < later.start := by
        intro trees
        induction trees with
        | nil => intro _ _ _ _; exact .nil
        | cons tree rest restHypothesis =>
            intro left start inside stands
            rw [Tree.textOfAll_cons] at stands
            have isChild := inside tree List.mem_cons_self
            have restStands := stands.right
            rw [← Tree.width_eq] at restStands
            rw [Place.parentsFirst.amongChildren, List.filter_append, List.pairwise_append]
            refine ⟨childHypothesis tree isChild (wellFormed.children tree isChild) stands.left,
              restHypothesis _ _ (fun other member => inside other (List.mem_cons_of_mem tree member))
                restStands, ?_⟩
            intro place inTree later inRest
            obtain ⟨isPlace, isImport⟩ := List.mem_filter.mp inTree
            obtain ⟨focusWellFormed, _⟩ :=
              Place.of_parentsFirst (wellFormed.children tree isChild) stands.left isPlace
            obtain ⟨_, _, shape⟩ := shape_of_isImportCall isImport focusWellFormed
            have room : 0 < place.focus.width := by
              rw [shape, Tree.width_node, Tree.widthOfAll_cons, Tree.width_leaf]
              exact Nat.add_pos_left (by decide) _
            have bounds := (Place.range_of_parentsFirst isPlace).2
            have further := (Place.range_of_amongChildren (List.mem_of_mem_filter inRest)).1
            rw [Place.stop] at bounds
            omega
      have inside := among children [] start (fun _ member => member) stands
      rw [Place.parentsFirst, List.filter_cons]
      split
      next isImport =>
        refine List.pairwise_cons.mpr ⟨fun later member => ?_, inside⟩
        obtain ⟨isPlace, isLater⟩ := List.mem_filter.mp member
        obtain ⟨_, rest, shape⟩ := shape_of_isImportCall isImport wellFormed
        cases shape
        rw [Place.parentsFirst.amongChildren, Place.parentsFirst, List.singleton_append,
          List.mem_cons] at isPlace
        rcases isPlace with rfl | inRest
        · cases isLater
        · have bounds := (Place.range_of_amongChildren inRest).1
          have room : 0 < (Script.Tree.leaf (some .callee) .importWord Word.importWord).width := by
            decide
          change start < later.start
          omega
      next => exact inside

/-- The books of the code: its edits, its diagnostics and what it leaves alone are the entries for the
imports among some places. -/
theorem accounted_decisions (localName marker : Text)
    (same : ∀ name, guards.contains name = true ↔ name ∈ names) {places : List Place}
    (wellFormed : ∀ place ∈ places, place.focus.WellFormed ∧
      Text.StandsAt source place.start place.text) :
    ∃ kept, Accounted source localName marker names
      (places.filter fun place => isImportCall place.focus)
      (((places.filterMap DynamicImport.ofPlace?).map
        (decide source localName marker guards)).filterMap Decision.edit?)
      (((places.filterMap DynamicImport.ofPlace?).map
        (decide source localName marker guards)).filterMap Decision.diagnostic?) kept := by
  induction places with
  | nil => exact ⟨[], .nil⟩
  | cons place places inductionHypothesis =>
      obtain ⟨kept, others⟩ := inductionHypothesis fun other member =>
        wellFormed other (List.mem_cons_of_mem place member)
      have isImport := isSome_dynamicImport place
      cases found : DynamicImport.ofPlace? place with
      | none =>
          rw [found, Option.isSome_none] at isImport
          rw [List.filterMap_cons_none found, List.filter_cons_of_neg (by simp [← isImport])]
          exact ⟨kept, others⟩
      | some dynamicImport =>
          rw [found, Option.isSome_some] at isImport
          rw [List.filterMap_cons_some found, List.filter_cons_of_pos (by simp [← isImport]),
            List.map_cons]
          obtain ⟨focusWellFormed, stands⟩ := wellFormed place List.mem_cons_self
          rcases decide_cases localName marker same found focusWellFormed stands with
            ⟨guarded, decided⟩ | ⟨notGuarded, literal, without, edit, decided, replaces⟩ |
              ⟨notGuarded, other, diagnostic, decided, located⟩
          · rw [decided]
            exact ⟨place :: kept, .guarded guarded others⟩
          · rw [decided]
            exact ⟨kept, .rewritten notGuarded literal without replaces others⟩
          · rw [decided]
            exact ⟨kept, .skipped notGuarded other located others⟩

/-- The entry point is known by the name it is imported under and by its own. -/
theorem localNames_spec (instrumentation : Instrumentation) (binding : Option ImportBinding) :
    let localName := (binding.bind (·.defaultLocal)).getD instrumentation.entryName
    (instrumentation.localNames binding).1 = localName ∧
      ∀ name, (instrumentation.localNames binding).2.contains name = true ↔
        name ∈ [localName, instrumentation.entryName] := by
  intro localName
  rw [Instrumentation.localNames]
  split
  next same => exact ⟨rfl, fun name => by simp [localName, same]⟩
  next different => exact ⟨rfl, fun name => by simp [localName]⟩

/-- The outcome of injection: what is counted and reported in the books, and the text that the edits in the
books make, together with one that adds a declaration. -/
theorem injectTree_accounts {statements : List Tree} (directory : Path)
    (instrumentation : Instrumentation)
    (wellFormed : (Script.Tree.node none .program statements).WellFormed)
    (same : (Script.Tree.node none .program statements).text = source)
    {binding : Option ImportBinding}
    (bound : findBinding? (.node none .program statements) directory instrumentation.modulePath =
      binding) (named : instrumentation.localNames binding = (localName, guards))
    (known : ∀ name, guards.contains name = true ↔ name ∈ names) {outcome : Outcome}
    (injected : injectTree source (.node none .program statements) directory instrumentation =
      outcome) :
    ∃ edits kept, ∃ declaration : Option Edit,
      Accounted source localName instrumentation.marker names
        (importPlaces (.node none .program statements)) edits outcome.diagnostics kept ∧
      outcome.rewritten = edits.length ∧
      outcome.textOr source = Edit.applyAll source (declaration.toList ++ edits) ∧
      Edit.InOrder 0 source.length (declaration.toList ++ edits) ∧
      declaration.isSome = binding.isNone ∧
      ∀ edit ∈ declaration, edit = .insert edit.range.start edit.text := by
  have stands : Text.StandsAt source 0 (Script.Tree.node none .program statements).text := by
    rw [same]
    exact .whole source
  have sound : ∀ place ∈ Place.preorder (.node none .program statements),
      place.focus.WellFormed ∧ Text.StandsAt source place.start place.text := by
    intro place member
    rw [Place.preorder_eq] at member
    exact Place.of_parentsFirst wellFormed stands member
  obtain ⟨kept, accounted⟩ :=
    accounted_decisions localName instrumentation.marker known sound
  have inOrder := insert_rewrites_inOrder guards localName instrumentation.marker wellFormed same
  rw [← edits_eq guards localName instrumentation.marker wellFormed same] at inOrder
  simp only [injectTree, bound, named] at injected
  subst injected
  rw [← dynamicImports] at accounted
  generalize (dynamicImports (.node none .program statements)).map
    (decide source localName instrumentation.marker guards) = decisions at accounted inOrder ⊢
  refine ⟨decisions.filterMap Decision.edit?, kept, ?_⟩
  cases binding with
  | some found =>
      refine ⟨none, accounted, rfl, ?_, inOrder none, rfl, ?_⟩
      · generalize decisions.filterMap Decision.edit? = edits
        cases edits with
        | nil => exact (Edit.applyAll_nil source).symm
        | cons => rfl
      · intro edit isDeclared
        cases isDeclared
  | none =>
      have added := insertDeclaration_eq (importDeclaration instrumentation directory) same
      refine ⟨some (insertDeclaration source (.node none .program statements)
        (importDeclaration instrumentation directory)), accounted, rfl, ?_, ?_, rfl, ?_⟩
      · simp [Outcome.textOr]
      · rw [added]
        exact inOrder (some _)
      · rintro edit ⟨⟩
        rw [added]
        rfl

/-- Injection accounts for each dynamic import of a script. An argument of the entry point, awaited or not,
is left alone; of the others, one of a plain string without a comment in the way of markup next to it is
replaced by one marked call, and any other is left alone and reported where it stands. -/
theorem inject_accounts (workingDirectory file : Path) (instrumentation : Instrumentation)
    {tree : Tree} (parsed : parse? source = some tree) :
    let binding := findBinding? tree (directoryOf workingDirectory file) instrumentation.modulePath
    let localName := (binding.bind (·.defaultLocal)).getD instrumentation.entryName
    ∃ outcome edits kept, ∃ declaration : Option Edit,
      inject? workingDirectory source file instrumentation = some outcome ∧
      Accounted source localName instrumentation.marker [localName, instrumentation.entryName]
        (importPlaces tree) edits outcome.diagnostics kept ∧
      (importPlaces tree).Pairwise (fun place later => place.start < later.start) ∧
      outcome.rewritten = edits.length ∧
      outcome.rewritten + outcome.diagnostics.length + kept.length = (importPlaces tree).length ∧
      outcome.textOr source = Edit.applyAll source (declaration.toList ++ edits) ∧
      Edit.InOrder 0 source.length (declaration.toList ++ edits) ∧
      declaration.isSome = binding.isNone ∧
      ∀ edit ∈ declaration, edit = .insert edit.range.start edit.text := by
  intro binding localName
  obtain ⟨same, wellFormed, statements, rfl⟩ := parse?_sound parsed
  obtain ⟨isLocal, known⟩ := localNames_spec instrumentation binding
  obtain ⟨edits, kept, declaration, accounted, rewritten, text, inOrder, isAdded, isInsert⟩ :=
    injectTree_accounts (directoryOf workingDirectory file) instrumentation wellFormed same rfl
      (Prod.ext isLocal rfl) known rfl
  have increasing : (importPlaces (.node none .program statements)).Pairwise
      fun place later => place.start < later.start := by
    have stands : Text.StandsAt source 0 (Script.Tree.node none .program statements).text := by
      rw [same]
      exact .whole source
    rw [importPlaces, Place.preorder_eq]
    exact imports_increasing wellFormed stands
  refine ⟨_, edits, kept, declaration, ?_, accounted, increasing, rewritten, ?_, text, inOrder,
    isAdded, isInsert⟩
  · rw [inject?, injectBy?, parsed, Option.map_some]
  · rw [rewritten]
    exact accounted.length_eq

/-- An import of each sort: an argument of the entry point, one of a plain string, and another. -/
def threeImports : Text := "p(import('a'));import('b');import(c)".toList

theorem inject_accounts_threeImports :
    ∃ tree outcome edits kept, parse? threeImports = some tree ∧
      inject? ⟨['/']⟩ threeImports ⟨"/f".toList⟩ smallEntry = some outcome ∧
      Accounted threeImports "p".toList "m".toList ["p".toList, "p".toList] (importPlaces tree) edits
        outcome.diagnostics kept ∧
      edits.length = 1 ∧ outcome.diagnostics.length = 1 ∧ kept.length = 1 := by
  have checked : (parse? threeImports).any (fun tree => Decidable.decide (
      ((findBinding? tree (directoryOf ⟨['/']⟩ ⟨"/f".toList⟩) smallEntry.modulePath).bind
        (·.defaultLocal)).getD smallEntry.entryName = "p".toList) &&
      Decidable.decide ((importPlaces tree).length = 3)) = true := by
    decide +kernel
  have computed : (inject? ⟨['/']⟩ threeImports ⟨"/f".toList⟩ smallEntry).any (fun outcome =>
      Decidable.decide (outcome.rewritten = 1) &&
        Decidable.decide (outcome.diagnostics.length = 1)) = true := by
    decide +kernel
  obtain ⟨tree, parsed, checked⟩ := (Option.any_eq_true _ _).mp checked
  rw [Bool.and_eq_true, decide_eq_true_eq, decide_eq_true_eq] at checked
  obtain ⟨outcome, edits, kept, _, injected, accounted, _, rewritten, balance, _⟩ :=
    inject_accounts ⟨['/']⟩ ⟨"/f".toList⟩ smallEntry parsed
  obtain ⟨known, isKnown, counts⟩ := (Option.any_eq_true _ _).mp computed
  rw [injected] at isKnown
  cases isKnown
  rw [Bool.and_eq_true, decide_eq_true_eq, decide_eq_true_eq] at counts
  rw [checked.1] at accounted
  rw [checked.2, counts.1, counts.2] at balance
  exact ⟨tree, outcome, edits, kept, parsed, injected, accounted, rewritten ▸ counts.1, counts.2,
    by omega⟩

/-- An import of a plain string behind a comment in the way of markup. -/
def commentedPath : Text := "import(<!--c
'a')".toList

/-- Such a comment counts as an argument: the import is skipped, though a plain string is the only expression
it is given. -/
theorem inject_accounts_markupComment :
    (∃ tree place, parse? commentedPath = some tree ∧ importPlaces tree = [place] ∧ IsLiteral place ∧
      ¬ IsGuarded ["p".toList] place) ∧
    inject? ⟨['/']⟩ commentedPath ⟨"/f".toList⟩ smallEntry =
      some ⟨some "import p from './p';\nimport(<!--c\n'a')".toList, 0, true, false,
        [⟨1, 1, ("Skipping dynamic import: source is not a string literal (type: html_comment). " ++
          "Source: import(<!--c\n'a')").toList⟩], none⟩ := by
  refine ⟨?_, by decide +kernel⟩
  have checked : (parse? commentedPath).any (fun tree =>
      Decidable.decide ((importPlaces tree).length = 1) && (importPlaces tree).all fun place =>
        Decidable.decide ((expressions place).map Place.kind = [.string]) &&
          !isArgumentOfCall (DynamicImport.mk place none none 0).outer ["p".toList]) = true := by
    decide +kernel
  obtain ⟨tree, parsed, checked⟩ := (Option.any_eq_true _ _).mp checked
  rw [Bool.and_eq_true, decide_eq_true_eq] at checked
  obtain ⟨place, only⟩ := List.length_eq_one_iff.mp checked.1
  have ofPlace := checked.2
  rw [only, List.all_cons, List.all_nil, Bool.and_true, Bool.and_eq_true, decide_eq_true_eq,
    Bool.not_eq_true'] at ofPlace
  obtain ⟨path, expressed, isString⟩ := List.map_eq_singleton_iff.mp ofPlace.1
  refine ⟨tree, place, parsed, only, ⟨path, expressed, isString⟩, fun guarded => ?_⟩
  have known : ∀ name, ["p".toList].contains name = true ↔ name ∈ ["p".toList] := by simp
  have isArgument := (isArgumentOfCall_outer_iff known place none none 0).mpr guarded
  rw [ofPlace.2] at isArgument
  cases isArgument

end ImportMeter.Instrument
