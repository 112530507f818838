/-
This file proves that the declaration which injection adds is the import of the entry point that both
passes find in the script they are given next.
-/
import ImportMeter.Proofs.Instrument.Declaration
import ImportMeter.Proofs.Instrument.RoundTrip
import ImportMeter.Proofs.Path

namespace ImportMeter.Instrument

open Script

variable {source : Text} {guards : List Text} {localName marker : Text} {standing : Standing}
  {statements : List Tree} {directory : Path} {instrumentation : Instrumentation}

/-- Without an import, the entry point is known by its own name. -/
theorem localNames_none : instrumentation.localNames none =
    (instrumentation.entryName, [instrumentation.entryName]) := if_pos rfl

/-- The statements of a script with the calls that injection writes, but without a declaration. -/
def callsWrapped (instrumentation : Instrumentation) (statements : List Tree) : List Tree :=
  statements.map (wrapTree [instrumentation.entryName] instrumentation.entryName
    instrumentation.marker .plain)

/-- True if the wrapped statements of a script are read as a script that begins as the first. -/
def ReadsWrapped (instrumentation : Instrumentation) (statements : List Tree) : Prop :=
  ∃ others, parse? (Tree.textOfAll (callsWrapped instrumentation statements)) =
      some (.node none .program others) ∧
    others.takeWhile isLeading = statements.takeWhile isLeading ∧ SystemLineLeads others

theorem callsWrapped_split (instrumentation : Instrumentation) (statements : List Tree)
    (wellFormed : ∀ tree ∈ statements, tree.WellFormed) :
    callsWrapped instrumentation statements = statements.takeWhile isLeading ++
      callsWrapped instrumentation (statements.dropWhile isLeading) := by
  have split := List.takeWhile_append_dropWhile (p := isLeading) (l := statements)
  rw [callsWrapped, callsWrapped]
  conv_lhs => rw [← split, List.map_append, map_wrapTree_leading wellFormed]

theorem isLeading_congr {first second : Tree} (same : first.kind = second.kind) :
    isLeading first = isLeading second := by
  rw [isLeading, isLeading, same]

/-- What leads a script leads the wrapped script, and nothing else does. -/
theorem leading_callsWrapped (instrumentation : Instrumentation)
    (wellFormed : ∀ tree ∈ statements, tree.WellFormed) :
    (callsWrapped instrumentation statements).takeWhile isLeading = statements.takeWhile isLeading ∧
      (callsWrapped instrumentation statements).dropWhile isLeading =
        callsWrapped instrumentation (statements.dropWhile isLeading) := by
  have keeps := keeps_wrapTree [instrumentation.entryName] instrumentation.entryName
    instrumentation.marker .plain
  have kept : isLeading ∘ wrapTree [instrumentation.entryName] instrumentation.entryName
      instrumentation.marker .plain = isLeading :=
    funext fun tree => isLeading_congr (keeps.kind tree)
  constructor
  · rw [callsWrapped, List.takeWhile_map, kept, map_wrapTree_leading wellFormed]
  · rw [callsWrapped, List.dropWhile_map, kept, callsWrapped]

theorem systemLineLeads_callsWrapped (instrumentation : Instrumentation)
    (wellFormed : ∀ tree ∈ statements, tree.WellFormed) (systemLine : SystemLineLeads statements) :
    SystemLineLeads (callsWrapped instrumentation statements) := by
  rw [SystemLineLeads, (leading_callsWrapped instrumentation wellFormed).2, callsWrapped,
    List.forall_mem_map]
  intro tree member
  rw [(keeps_wrapTree _ _ _ _).kind]
  exact systemLine tree member

/-- Nothing stands behind all that leads if no text does after wrapping. -/
theorem dropWhile_eq_nil_of_wrapped (isIdentifier : IsIdentifier instrumentation.entryName)
    (parsed : parse? source = some (.node none .program statements))
    (systemLine : SystemLineLeads statements)
    (empty : Tree.textOfAll (callsWrapped instrumentation (statements.dropWhile isLeading)) = []) :
    statements.dropWhile isLeading = [] := by
  obtain ⟨_, wellFormed, _⟩ := parse?_sound parsed
  obtain ⟨first, rest, begins, opens⟩ := isIdentifier.exists_first
  have notBlank : isBlank first = false := by
    rcases opens with isPart | rfl
    · exact isBlank_of_namePart isPart
    · rfl
  have each : ∀ tree ∈ statements.dropWhile isLeading, tree.WellFormed := fun tree member =>
    wellFormed.children tree ((List.dropWhile_sublist _).mem member)
  have sameBegin := (sameEnds_wrapTreeAmong_of .plain fun tree member =>
    sameEnds_wrapTree [instrumentation.entryName] instrumentation.marker begins notBlank
      (each tree member)).1
  rw [callsWrapped] at empty
  rw [empty] at sameBegin
  refine dropWhile_eq_nil parsed systemLine ?_
  rcases sameBegin with same | ⟨front, letter, rest, other, otherRest, _, _, _, impossible⟩
  · exact same
  · simp at impossible

/-- The declaration gets a line of its own after wrapping where it does before. -/
theorem addedLine_wrapped {others : List Tree} (isIdentifier : IsIdentifier instrumentation.entryName)
    (parsed : parse? source = some (.node none .program statements))
    (systemLine : SystemLineLeads statements)
    (reads : parse? (Tree.textOfAll (callsWrapped instrumentation statements)) =
      some (.node none .program others))
    (begins : others.takeWhile isLeading = statements.takeWhile isLeading) :
    addedLine (Tree.textOfAll (callsWrapped instrumentation statements)) others [] =
        addedLine source statements [] ∧
      Tree.textOfAll (others.dropWhile isLeading) =
        Tree.textOfAll (callsWrapped instrumentation (statements.dropWhile isLeading)) := by
  obtain ⟨same, wellFormed, _⟩ := parse?_sound parsed
  obtain ⟨otherSame, _, _⟩ := parse?_sound reads
  have split := List.takeWhile_append_dropWhile (p := isLeading) (l := others)
  have wrapped := callsWrapped_split instrumentation statements wellFormed.children
  have behind : Tree.textOfAll (others.dropWhile isLeading) =
      Tree.textOfAll (callsWrapped instrumentation (statements.dropWhile isLeading)) := by
    rw [Tree.text_node, ← split, wrapped, begins, Tree.textOfAll_append, Tree.textOfAll_append] at otherSame
    exact List.append_cancel_left otherSame
  refine ⟨?_, behind⟩
  by_cases empty : statements.dropWhile isLeading = []
  · have whole := List.takeWhile_append_dropWhile (p := isLeading) (l := statements)
    rw [empty, List.append_nil] at whole
    have unchanged : callsWrapped instrumentation statements = statements := by
      rw [wrapped, empty, callsWrapped, List.map_nil, List.append_nil, whole]
    rw [unchanged, ← Tree.text_node none .program, same] at reads ⊢
    rw [parsed] at reads
    cases reads
    rfl
  · have filled : others.dropWhile isLeading ≠ [] := by
      intro nothing
      rw [nothing, Tree.textOfAll_nil] at behind
      exact empty (dropWhile_eq_nil_of_wrapped isIdentifier parsed systemLine behind.symm)
    rw [addedLine_nil, addedLine_nil, if_neg fun open' => filled open'.1,
      if_neg fun open' => empty open'.1]

/-- What injection writes is read as the declaration in front of the statements that the wrapped script is read
as. -/
theorem parse?_injected {others : List Tree} (isIdentifier : IsIdentifier instrumentation.entryName)
    (plain : IsPlainText (instrumentation.modulePath.importSpecifier directory))
    (parsed : parse? source = some (.node none .program statements))
    (systemLine : SystemLineLeads statements)
    (bound : findBinding? (.node none .program statements) directory instrumentation.modulePath = none)
    (reads : parse? (Tree.textOfAll (callsWrapped instrumentation statements)) =
      some (.node none .program others))
    (begins : others.takeWhile isLeading = statements.takeWhile isLeading)
    (otherLine : SystemLineLeads others) :
    ∃ front, (∀ tree ∈ front, isLeading tree = true) ∧
      Tree.textOfAll front =
        Tree.textOfAll (statements.takeWhile isLeading) ++ addedLine source statements [] ∧
      withoutTrivia front = withoutTrivia (statements.takeWhile isLeading) ∧
      parse? ((injectTree source (.node none .program statements) directory
          instrumentation).textOr source) =
        some (.node none .program (front ++ declarationOf instrumentation.entryName
          (instrumentation.modulePath.importSpecifier directory) :: .leaf none .blank ['\n'] ::
            others.dropWhile isLeading)) := by
  obtain ⟨same, wellFormed, _⟩ := parse?_sound parsed
  obtain ⟨line, behind⟩ := addedLine_wrapped isIdentifier parsed systemLine reads begins
  obtain ⟨front, leading, frontText, frontTrivia, readsAgain⟩ :=
    parse?_declaration reads otherLine isIdentifier plain
  obtain ⟨text, added, _⟩ :=
    injectTree_spec directory instrumentation wellFormed same bound localNames_none rfl
  rw [line, begins] at frontText
  rw [begins] at frontTrivia
  refine ⟨front, leading, frontText, frontTrivia, ?_⟩
  have declaration : importDeclaration instrumentation directory =
      (declarationOf instrumentation.entryName
        (instrumentation.modulePath.importSpecifier directory)).text ++ ['\n'] :=
    (text_declarationOf _ _).symm
  rw [← readsAgain, text, added, Option.isNone_none, if_pos rfl, addedLine_eq, declaration,
    Tree.textOfAll_append front, frontText, Tree.textOfAll_cons, Tree.textOfAll_cons, behind]
  simp only [callsWrapped, Tree.text_leaf, List.append_assoc]

theorem callsReadBack_none : CallsReadBack instrumentation none statements ↔
    parse? (Tree.textOfAll (callsWrapped instrumentation statements)) =
      some (.node none .program (callsWrapped instrumentation statements)) := by
  rw [CallsReadBack, localNames_none]
  rfl

/-- Read as they are written, the wrapped calls leave a script that begins as before. -/
theorem readsWrapped_of_callsReadBack (wellFormed : ∀ tree ∈ statements, tree.WellFormed)
    (systemLine : SystemLineLeads statements)
    (reads : CallsReadBack instrumentation none statements) :
    ReadsWrapped instrumentation statements :=
  ⟨_, callsReadBack_none.mp reads, (leading_callsWrapped instrumentation wellFormed).1,
    systemLineLeads_callsWrapped instrumentation wellFormed systemLine⟩

/-- What injection writes is read as the declaration in front of the wrapped calls, if these are read as they
are written. -/
theorem parse?_injectedCalls (isIdentifier : IsIdentifier instrumentation.entryName)
    (plain : IsPlainText (instrumentation.modulePath.importSpecifier directory))
    (parsed : parse? source = some (.node none .program statements))
    (systemLine : SystemLineLeads statements)
    (bound : findBinding? (.node none .program statements) directory instrumentation.modulePath = none)
    (reads : CallsReadBack instrumentation none statements) :
    ∃ front, (∀ tree ∈ front, isLeading tree = true) ∧
      Tree.textOfAll front =
        Tree.textOfAll (statements.takeWhile isLeading) ++ addedLine source statements [] ∧
      withoutTrivia front = withoutTrivia (statements.takeWhile isLeading) ∧
      parse? ((injectTree source (.node none .program statements) directory
          instrumentation).textOr source) =
        some (.node none .program (front ++ declarationOf instrumentation.entryName
          (instrumentation.modulePath.importSpecifier directory) :: .leaf none .blank ['\n'] ::
            callsWrapped instrumentation (statements.dropWhile isLeading))) := by
  obtain ⟨_, wellFormed, _⟩ := parse?_sound parsed
  obtain ⟨begins, behind⟩ := leading_callsWrapped instrumentation wellFormed.children
  have injected := parse?_injected isIdentifier plain parsed systemLine bound
    (callsReadBack_none.mp reads) begins
    (systemLineLeads_callsWrapped instrumentation wellFormed.children systemLine)
  rwa [behind] at injected

theorem isAbsolute_directoryOf {workingDirectory : Path} (file : Path)
    (absolute : workingDirectory.isAbsolute = true) :
    (directoryOf workingDirectory file).isAbsolute = true :=
  Path.isAbsolute_absolutize _ absolute

/-- The specifier of the declaration leads to the module. -/
theorem imports_importSpecifier
    (resolves : (directory.join ⟨instrumentation.modulePath.importSpecifier directory⟩).normalize =
      instrumentation.modulePath.normalize) :
    (⟨instrumentation.modulePath.importSpecifier directory, some instrumentation.entryName, 1⟩ :
      Declared).imports directory instrumentation.modulePath = true := by
  rw [Declared.imports, resolves, Option.isSome_some, Bool.true_and, decide_eq_true_eq]

/-- Behind what leads a script, the declaration is the import that is found. -/
theorem findBinding?_declarationOf {front : List Tree} (after : List Tree)
    {entryName specifier : Text} {target : Path} (leading : ∀ tree ∈ front, isLeading tree = true)
    (imports : (⟨specifier, some entryName, 1⟩ : Declared).imports directory target = true) :
    ∃ binding, findBinding? (.node none .program (front ++ declarationOf entryName specifier :: after))
        directory target = some binding ∧
      binding.statement.focus = declarationOf entryName specifier ∧
      binding.statement.start = Tree.widthOfAll front ∧
      declaredBy binding = ⟨specifier, some entryName, 1⟩ := by
  have isImport : (declared? (declarationOf entryName specifier)).any (·.imports directory target) =
      true := (any_imports_declarationOf entryName specifier directory target).trans imports
  have others : ∀ tree ∈ front, (declared? tree).any (·.imports directory target) = false :=
    fun tree member => by rw [declared?_leading (leading tree member)]; rfl
  have declares := declaredBy_findBinding? (front ++ declarationOf entryName specifier :: after)
    directory target
  have nothing : front.filterMap declared? = [] :=
    List.filterMap_eq_nil_iff.mpr fun tree member => declared?_leading (leading tree member)
  rw [List.filterMap_append, nothing, List.nil_append,
    List.filterMap_cons_some (declared?_declarationOf _ _), List.find?_cons] at declares
  simp only [imports, Option.map_eq_some_iff] at declares
  obtain ⟨binding, found, declared⟩ := declares
  obtain ⟨before, behind, split, start, _, isDeclared, isOther, noOther⟩ := findBinding?_split found
  have isFirst : (declared? binding.statement.focus).any (·.imports directory target) = true := by
    rw [isDeclared, Option.any_some, isOther]
  have sameFront : before = front := by
    calc
      before = beforeImport directory target (before ++ binding.statement.focus :: behind) :=
        (beforeImport_split isFirst noOther).symm
      _ = beforeImport directory target (front ++ declarationOf entryName specifier :: after) := by
        rw [split]
      _ = front := beforeImport_split isImport others
  subst sameFront
  have sameRest := List.append_cancel_left split
  exact ⟨binding, found, (List.cons.inj sameRest).1.symm, start, declared⟩

/-- The entry point is known by its own name alone where that is what it is imported under. -/
theorem localNames_declared {binding : ImportBinding} {specifier : Text}
    (declared : declaredBy binding = ⟨specifier, some instrumentation.entryName, 1⟩) :
    instrumentation.localNames (some binding) =
      (instrumentation.entryName, [instrumentation.entryName]) := by
  have isEntry : binding.defaultLocal = some instrumentation.entryName :=
    congrArg Declared.defaultLocal declared
  simp [Instrumentation.localNames, isEntry]

/-- Behind what leads a script, the declaration makes the entry point known by its own name alone. -/
theorem localNames_declarationOf {front : List Tree} (after : List Tree)
    (leading : ∀ tree ∈ front, isLeading tree = true)
    (resolves : (directory.join ⟨instrumentation.modulePath.importSpecifier directory⟩).normalize =
      instrumentation.modulePath.normalize) :
    instrumentation.localNames (findBinding? (.node none .program (front ++
        declarationOf instrumentation.entryName
          (instrumentation.modulePath.importSpecifier directory) :: after))
      directory instrumentation.modulePath) =
        (instrumentation.entryName, [instrumentation.entryName]) := by
  obtain ⟨binding, found, _, _, declared⟩ :=
    findBinding?_declarationOf after leading (imports_importSpecifier resolves)
  rw [found, localNames_declared declared]

/-- Where no call was marked before, the marked calls are those that injection wrote. -/
theorem markedCount_injectedCalls {front : List Tree} (specifier : Text)
    (wellFormed : ∀ tree ∈ statements, tree.WellFormed)
    (unmarked : ∀ tree ∈ front ++ statements.dropWhile isLeading,
      tree.markedCount [instrumentation.entryName] instrumentation.marker = 0) :
    (Script.Tree.node none .program (front ++
        declarationOf instrumentation.entryName specifier :: .leaf none .blank ['\n'] ::
          callsWrapped instrumentation (statements.dropWhile isLeading))).markedCount
            [instrumentation.entryName] instrumentation.marker =
      (fates [instrumentation.entryName] .plain (.node none .program statements)).count .rewritten := by
  have behind : ∀ tree ∈ statements.dropWhile isLeading, tree.WellFormed := fun tree member =>
    wellFormed tree ((List.dropWhile_sublist _).mem member)
  rw [markedCount_program, callsWrapped, markedCount_added unmarked behind,
    ← fates_behindLeading _ wellFormed]

/-- The declaration that injection adds is the import that both passes find in what injection wrote. A second
injection adds none, and removal deletes it with the calls, provided that nothing else uses it. -/
theorem inject_recognized (workingDirectory file : Path) (instrumentation : Instrumentation)
    {tree : Tree} (absolute : workingDirectory.isAbsolute = true)
    (moduleAbsolute : instrumentation.modulePath.isAbsolute = true)
    (isName : IsName instrumentation.entryName)
    (plain : IsPlainText
      (instrumentation.modulePath.importSpecifier (directoryOf workingDirectory file)))
    (parsed : parse? source = some tree) (systemLine : SystemLineLeads tree.children) :
    let directory := directoryOf workingDirectory file
    let specifier := instrumentation.modulePath.importSpecifier directory
    ∃ outcome, inject? workingDirectory source file instrumentation = some outcome ∧
      (outcome.importAdded = true →
        (0 < outcome.rewritten → ReadsWrapped instrumentation tree.children) →
        ∃ again binding second removed, parse? (outcome.textOr source) = some again ∧
          findBinding? again directory instrumentation.modulePath = some binding ∧
          binding.statement.focus = declarationOf instrumentation.entryName specifier ∧
          binding.statement.start = Tree.widthOfAll (tree.children.takeWhile isLeading) +
            (addedLine source tree.children []).length ∧
          declaredBy binding = ⟨specifier, some instrumentation.entryName, 1⟩ ∧
          inject? workingDirectory (outcome.textOr source) file instrumentation = some second ∧
          second.importAdded = false ∧
          remove? workingDirectory (outcome.textOr source) file instrumentation = some removed ∧
          (0 < removed.rewritten → (removed.importRemoved = true ↔
            ImportUnused directory instrumentation.modulePath [instrumentation.entryName]
              instrumentation.marker again.children))) := by
  intro directory specifier
  obtain ⟨same, wellFormed, statements, rfl⟩ := parse?_sound parsed
  refine ⟨injectTree source (.node none .program statements) directory instrumentation,
    by rw [inject?, injectBy?, parsed, Option.map_some], fun added reads => ?_⟩
  have resolves := Path.normalize_join_importSpecifier (isAbsolute_directoryOf file absolute)
    moduleAbsolute
  have imports : (⟨specifier, some instrumentation.entryName, 1⟩ : Declared).imports directory
      instrumentation.modulePath = true := imports_importSpecifier resolves
  obtain ⟨_, isAdded, _, _, rewritten, _⟩ :=
    injectTree_spec directory instrumentation wellFormed same rfl rfl rfl
  have bound : findBinding? (.node none .program statements) directory instrumentation.modulePath =
      none := by
    rw [added] at isAdded
    exact Option.isNone_iff_eq_none.mp isAdded.symm
  rw [bound] at rewritten
  have readsWrapped : ReadsWrapped instrumentation statements := by
    rcases Nat.eq_zero_or_pos (injectTree source (.node none .program statements) directory
      instrumentation).rewritten with nothing | some
    · exact readsWrapped_of_callsReadBack wellFormed.children systemLine
        (callsReadBack_of_none parsed (rewritten.symm.trans nothing))
    · exact reads some
  obtain ⟨others, readsOthers, begins, otherLine⟩ := readsWrapped
  obtain ⟨front, leading, frontText, _, readsAgain⟩ :=
    parse?_injected isName.isIdentifier plain parsed systemLine bound readsOthers begins otherLine
  obtain ⟨againSame, againWellFormed, _⟩ := parse?_sound readsAgain
  obtain ⟨binding, found, isDeclaration, start, declared⟩ :=
    findBinding?_declarationOf (.leaf none .blank ['\n'] :: others.dropWhile isLeading)
      leading imports
  refine ⟨_, binding, _, _, readsAgain, found, isDeclaration, ?_, declared,
    by rw [inject?, injectBy?, readsAgain, Option.map_some], ?_,
    by rw [remove?, removeBy?, readsAgain, Option.map_some], fun marks => ?_⟩
  · rw [start, Tree.widthOfAll_eq, frontText, List.length_append, ← Tree.widthOfAll_eq]
    rfl
  · exact (injectTree_spec directory instrumentation againWellFormed againSame found rfl rfl).2.1
  · have callees := congrArg Prod.snd (localNames_declared declared)
    rw [← found] at callees
    rw [removeTree_rewritten, callees] at marks
    exact removeTree_importRemoved_iff_unused _ directory instrumentation againWellFormed callees marks

/-- A line for the system and a comment in front of an import. -/
def behindSystemLine : Text := "#!r\n//c\nimport('a')".toList

theorem inject_recognized_behindSystemLine :
    ∃ outcome again binding second removed,
      inject? ⟨['/']⟩ behindSystemLine ⟨"/f".toList⟩ smallEntry = some outcome ∧
      outcome.importAdded = true ∧ outcome.rewritten = 1 ∧
      parse? (outcome.textOr behindSystemLine) = some again ∧
      findBinding? again (directoryOf ⟨['/']⟩ ⟨"/f".toList⟩) smallEntry.modulePath = some binding ∧
      binding.statement.focus = declarationOf "p".toList "./p".toList ∧ binding.statement.start = 8 ∧
      inject? ⟨['/']⟩ (outcome.textOr behindSystemLine) ⟨"/f".toList⟩ smallEntry = some second ∧
      second.importAdded = false ∧
      remove? ⟨['/']⟩ (outcome.textOr behindSystemLine) ⟨"/f".toList⟩ smallEntry = some removed ∧
      removed.importRemoved = true := by
  have checked : (parse? behindSystemLine).any (fun tree =>
      let outcome := injectTree behindSystemLine tree (directoryOf ⟨['/']⟩ ⟨"/f".toList⟩) smallEntry
      let wrapped := callsWrapped smallEntry tree.children
      Decidable.decide (outcome.importAdded = true ∧ outcome.rewritten = 1) &&
        Decidable.decide (SystemLineLeads tree.children) &&
        Decidable.decide (parse? (Tree.textOfAll wrapped) = some (.node none .program wrapped)) &&
        Decidable.decide (wrapped.takeWhile isLeading = tree.children.takeWhile isLeading) &&
        Decidable.decide (SystemLineLeads wrapped) &&
        Decidable.decide (Tree.widthOfAll (tree.children.takeWhile isLeading) +
          (addedLine behindSystemLine tree.children []).length = 8) &&
        (remove? ⟨['/']⟩ (outcome.textOr behindSystemLine) ⟨"/f".toList⟩ smallEntry).any
          (·.importRemoved)) = true := by
    decide +kernel
  have specifier : smallEntry.modulePath.importSpecifier (directoryOf ⟨['/']⟩ ⟨"/f".toList⟩) =
      "./p".toList := by
    decide +kernel
  have plain : IsPlainText "./p".toList := by decide
  obtain ⟨tree, parsed, checked⟩ := (Option.any_eq_true _ _).mp checked
  simp only [Bool.and_eq_true, decide_eq_true_eq] at checked
  obtain ⟨⟨⟨⟨⟨⟨⟨added, wraps⟩, systemLine⟩, reads⟩, begins⟩, otherLine⟩, start⟩, removes⟩ := checked
  obtain ⟨outcome, injected, recognized⟩ :=
    inject_recognized ⟨['/']⟩ ⟨"/f".toList⟩ smallEntry rfl rfl
      ⟨⟨'p', [], rfl, by decide⟩, List.all_eq_true.mp (by decide)⟩
      (by rw [specifier]; exact plain) parsed systemLine
  have isOutcome := injected
  rw [inject?, injectBy?, parsed, Option.map_some] at isOutcome
  cases isOutcome
  obtain ⟨again, binding, second, removed, readsAgain, found, isDeclaration, isStart, _, isSecond,
    unadded, isRemoved, _⟩ := recognized added fun _ => ⟨_, reads, begins, otherLine⟩
  rw [isRemoved, Option.any_some] at removes
  rw [specifier] at isDeclaration
  exact ⟨_, again, binding, second, removed, injected, added, wraps, readsAgain, found, isDeclaration,
    isStart.trans start, isSecond, unadded, isRemoved, removes⟩

/-- A quote in the path of the module is written into the declaration as it is, which ends its source there. -/
theorem inject_recognized_quoteInPath :
    ∃ outcome, inject? ⟨['/']⟩ "f()".toList ⟨"/f".toList⟩
        (.ofModule ⟨['/']⟩ ⟨"/'".toList⟩) = some outcome ∧ outcome.importAdded = true ∧
      outcome.text = some "import profileImport from './'';\nf()".toList ∧
      parse? (outcome.textOr "f()".toList) = none := by
  have computed : (inject? ⟨['/']⟩ "f()".toList ⟨"/f".toList⟩
      (.ofModule ⟨['/']⟩ ⟨"/'".toList⟩)).any (fun outcome => Decidable.decide (
        outcome.importAdded = true ∧
        outcome.text = some "import profileImport from './'';\nf()".toList ∧
        parse? (outcome.textOr "f()".toList) = none)) = true := by
    decide +kernel
  obtain ⟨outcome, injected, checked⟩ := (Option.any_eq_true _ _).mp computed
  exact ⟨outcome, injected, of_decide_eq_true checked⟩

end ImportMeter.Instrument
