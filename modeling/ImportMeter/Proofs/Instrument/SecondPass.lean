/-
This file proves what a second pass makes of a script that injection wrote: injected again, it stays as it
is, and removal restores the script that it was. Both ask that the wrapped calls are read as injection
writes them. The declaration that it adds need not be asked for: it is read as it is written.
-/
import ImportMeter.Proofs.Instrument.Recognition

namespace ImportMeter.Instrument

open Script

variable {source : Text} {statements : List Tree} {directory : Path}
  {instrumentation : Instrumentation}

/-- A script to which a declaration of the entry point can be added: the name of the entry point is one, the
specifier needs no escapes, and a line for the system leads the script. -/
structure IsDeclarable (instrumentation : Instrumentation) (directory : Path)
    (statements : List Tree) : Prop where
  isIdentifier : IsIdentifier instrumentation.entryName
  isPlain : IsPlainText (instrumentation.modulePath.importSpecifier directory)
  systemLine : SystemLineLeads statements

/-- What injection leaves is read as the statements that it wrote, between white space and comments. -/
theorem exists_readAgain (parsed : parse? source = some (.node none .program statements))
    {binding : Option ImportBinding}
    (bound : findBinding? (.node none .program statements) directory instrumentation.modulePath =
      binding)
    (declarable : binding = none → IsDeclarable instrumentation directory statements)
    (reads : CallsReadBack instrumentation binding statements) :
    ∃ again, parse? ((injectTree source (.node none .program statements) directory
        instrumentation).textOr source) = some (.node none .program again) ∧
      withoutTrivia again =
        withoutTrivia (injected instrumentation directory binding statements) := by
  obtain ⟨same, wellFormed, _⟩ := parse?_sound parsed
  cases binding with
  | none =>
      obtain ⟨isIdentifier, isPlain, systemLine⟩ := declarable rfl
      obtain ⟨front, _, _, sameTrivia, readsAgain⟩ :=
        parse?_injectedCalls isIdentifier isPlain parsed systemLine bound reads
      have blank : (Script.Tree.leaf none .blank ['\n']).isTrivia = true := rfl
      refine ⟨_, readsAgain, ?_⟩
      rw [injected, localNames_none]
      simp only [withoutTrivia_append, sameTrivia, Option.isNone_none, if_true, List.append_assoc,
        List.singleton_append]
      simp only [withoutTrivia, List.filter_cons, blank, Bool.not_true, Bool.false_eq_true, if_false,
        callsWrapped]
  | some found =>
      have split := List.takeWhile_append_dropWhile (p := isLeading) (l := statements)
      refine ⟨_, (congrArg parse? (textOr_injectTree_some wellFormed same bound)).trans reads, ?_⟩
      conv_lhs => rw [← split, List.map_append, map_wrapTree_leading wellFormed.children]
      rw [injected, Option.isNone_some, if_neg Bool.false_ne_true, List.append_nil]

/-- Read again, what injection wrote holds the imports that it left as they were. -/
theorem fates_readAgain {binding : Option ImportBinding} {again : List Tree}
    (wellFormed : ∀ tree ∈ statements, tree.WellFormed)
    (againWellFormed : ∀ tree ∈ again, tree.WellFormed)
    (same : withoutTrivia again =
      withoutTrivia (injected instrumentation directory binding statements)) :
    fates (instrumentation.localNames binding).2 .plain (.node none .program again) =
      (fates (instrumentation.localNames binding).2 .plain
        (.node none .program statements)).filter (· ≠ .rewritten) := by
  rw [fates_program, fates_program,
    ← fatesAmong_withoutTrivia fun tree member trivia => .trivia (againWellFormed tree member) trivia,
    same, fatesAmong_withoutTrivia (withoutImports_injected instrumentation directory binding wellFormed),
    fates_injected instrumentation directory binding wellFormed]

/-- A second injection has nothing to rewrite and nothing to add, and it skips as many imports as the first,
provided that the calls written by the first are read as it wrote them. -/
theorem inject_inject (workingDirectory file : Path) (instrumentation : Instrumentation)
    {tree : Tree} (absolute : workingDirectory.isAbsolute = true)
    (moduleAbsolute : instrumentation.modulePath.isAbsolute = true)
    (parsed : parse? source = some tree) :
    let directory := directoryOf workingDirectory file
    let binding := findBinding? tree directory instrumentation.modulePath
    ∃ outcome, inject? workingDirectory source file instrumentation = some outcome ∧
      ((binding = none → IsDeclarable instrumentation directory tree.children) →
        (0 < outcome.rewritten → CallsReadBack instrumentation binding tree.children) →
        ∃ second, inject? workingDirectory (outcome.textOr source) file instrumentation = some second ∧
          second.text = none ∧ second.rewritten = 0 ∧ second.importAdded = false ∧
          second.diagnostics.length = outcome.diagnostics.length) := by
  intro directory binding
  obtain ⟨same, wellFormed, statements, rfl⟩ := parse?_sound parsed
  obtain ⟨_, _, _, _, firstRewritten, skipped, _⟩ :=
    injectTree_spec directory instrumentation wellFormed same rfl rfl rfl
  refine ⟨injectTree source (.node none .program statements) directory instrumentation,
    by rw [inject?, injectBy?, parsed, Option.map_some], ?_⟩
  intro declarable reads
  have callsRead : CallsReadBack instrumentation binding statements := by
    rw [firstRewritten] at reads
    exact (Nat.eq_zero_or_pos _).elim (callsReadBack_of_none parsed) reads
  obtain ⟨againStatements, readsAgain, sameStatements⟩ :=
    exists_readAgain parsed rfl declarable callsRead
  generalize injectTree source (.node none .program statements) directory instrumentation = outcome
    at skipped readsAgain ⊢
  obtain ⟨againSame, againWellFormed, _⟩ := parse?_sound readsAgain
  have resolves := Path.normalize_join_importSpecifier (isAbsolute_directoryOf file absolute)
    moduleAbsolute
  obtain ⟨known, names⟩ := localNames_injected instrumentation directory wellFormed.children resolves
    rfl sameStatements
  obtain ⟨_, added, _, _, rewritten, left, unchanged⟩ :=
    injectTree_spec directory instrumentation againWellFormed againSame rfl rfl rfl
  refine ⟨injectTree (outcome.textOr source) (.node none .program againStatements) directory
    instrumentation, by rw [inject?, injectBy?, readsAgain, Option.map_some], ?_⟩
  generalize injectTree (outcome.textOr source) (.node none .program againStatements) directory
    instrumentation = second at added rewritten left unchanged ⊢
  have same := fates_readAgain wellFormed.children againWellFormed.children sameStatements
  have nothing : second.rewritten = 0 := by
    rw [rewritten, names, same, List.count_eq_zero]
    simp
  have unadded : second.importAdded = false := added.trans (Option.isNone_eq_false_iff.mpr known)
  refine ⟨unchanged.mpr ⟨nothing, unadded⟩, nothing, unadded, ?_⟩
  rw [left, names, same, skipped, List.count_filter (by decide)]

/-- Two imports, of which only the first is of a plain string. -/
def skippedImport : Text := "f(import('a'),import(b))".toList

theorem inject_inject_skippedImport :
    ∃ outcome second, inject? ⟨['/']⟩ skippedImport ⟨"/f".toList⟩ smallEntry = some outcome ∧
      outcome.rewritten = 1 ∧ outcome.importAdded = true ∧ outcome.diagnostics.length = 1 ∧
      inject? ⟨['/']⟩ (outcome.textOr skippedImport) ⟨"/f".toList⟩ smallEntry = some second ∧
      second.text = none ∧ second.rewritten = 0 ∧ second.importAdded = false ∧
      second.diagnostics.length = outcome.diagnostics.length := by
  have checked : (parse? skippedImport).any (fun tree =>
      let directory := directoryOf ⟨['/']⟩ ⟨"/f".toList⟩
      let outcome := injectTree skippedImport tree directory smallEntry
      Decidable.decide (outcome.rewritten = 1 ∧ outcome.importAdded = true ∧
          outcome.diagnostics.length = 1) &&
        Decidable.decide (SystemLineLeads tree.children) &&
        Decidable.decide (CallsReadBack smallEntry
          (findBinding? tree directory smallEntry.modulePath) tree.children)) = true := by
    decide +kernel
  have specifier : smallEntry.modulePath.importSpecifier (directoryOf ⟨['/']⟩ ⟨"/f".toList⟩) =
      "./p".toList := by
    decide +kernel
  have plain : IsPlainText "./p".toList := by decide
  obtain ⟨tree, parsed, checked⟩ := (Option.any_eq_true _ _).mp checked
  simp only [Bool.and_eq_true, decide_eq_true_eq] at checked
  obtain ⟨⟨⟨rewrites, added, skips⟩, systemLine⟩, reads⟩ := checked
  obtain ⟨outcome, injected, unchanged⟩ :=
    inject_inject ⟨['/']⟩ ⟨"/f".toList⟩ smallEntry rfl rfl parsed
  have isOutcome := injected
  rw [inject?, injectBy?, parsed, Option.map_some] at isOutcome
  cases isOutcome
  have declarable : IsDeclarable smallEntry (directoryOf ⟨['/']⟩ ⟨"/f".toList⟩) tree.children :=
    ⟨by decide, by rw [specifier]; exact plain, systemLine⟩
  obtain ⟨second, isSecond, nothing⟩ := unchanged (fun _ => declarable) fun _ => reads
  exact ⟨_, second, injected, rewrites, added, skips, isSecond, nothing⟩

/-- Braces that hold a block before injection and an object after it, where a marker of two slashes
begins a comment. -/
def blockOrObject : Text := "x=>\x7bf:\x7b\x7d/+'/;import('+a+');\n/import(\"b\")/g\x7d".toList

/-- Read again, the statements need not be the same. -/
theorem inject_inject_blockOrObject :
    ∃ outcome left second,
      inject? ⟨['/']⟩ blockOrObject ⟨"/f".toList⟩ ⟨⟨"/p".toList⟩, "p".toList, "//".toList⟩ =
        some outcome ∧ outcome.text = some left ∧
      inject? ⟨['/']⟩ left ⟨"/f".toList⟩ ⟨⟨"/p".toList⟩, "p".toList, "//".toList⟩ = some second ∧
        second.rewritten = 1 := by
  have first : inject? ⟨['/']⟩ blockOrObject ⟨"/f".toList⟩ ⟨⟨"/p".toList⟩, "p".toList, "//".toList⟩ =
      some ⟨some ("import p from './p';\nx=>\x7bf:\x7b\x7d/+'/;p('+a+', import.meta.url, null, '//');" ++
        "\n/import(\"b\")/g\x7d").toList, 1, true, false, [], none⟩ := by
    decide +kernel
  have second : (inject? ⟨['/']⟩ ("import p from './p';\nx=>\x7bf:\x7b\x7d/+'/;" ++
      "p('+a+', import.meta.url, null, '//');\n/import(\"b\")/g\x7d").toList ⟨"/f".toList⟩
        ⟨⟨"/p".toList⟩, "p".toList, "//".toList⟩).any (·.rewritten = 1) = true := by
    decide +kernel
  obtain ⟨outcome, isSecond, once⟩ := (Option.any_eq_true _ _).mp second
  exact ⟨_, _, outcome, first, rfl, isSecond, of_decide_eq_true once⟩

/-! ### Removal -/

theorem usedNames_leading {tree : Tree} (wellFormed : tree.WellFormed)
    (leading : isLeading tree = true) : usedNames tree = [] := by
  have notReference : isReferenceKind tree.kind = false := by
    rw [isLeading] at leading
    revert leading
    cases tree.kind <;> simp [Kind.isNamed, isReferenceKind]
  rw [wellFormed.eq_leaf (isToken_of_isLeading leading), usedNames, notReference]
  rfl

/-- What removal makes of the statements behind a declaration that injection added: it deletes the declaration
with its line and leaves the statements as they were. -/
theorem removeTree_added (wellFormed : (Script.Tree.node none .program statements).WellFormed)
    (tight : ∀ tree ∈ statements, Tight tree)
    (resolves : (directory.join ⟨instrumentation.modulePath.importSpecifier directory⟩).normalize =
      instrumentation.modulePath.normalize)
    (unmarked : (Script.Tree.node none .program statements).markedCount [instrumentation.entryName]
      instrumentation.marker = 0)
    (unused : instrumentation.entryName ∉ usedNames (.node none .program statements))
    (unindented : indentation (Tree.textOfAll (statements.takeWhile isLeading)) = 0)
    {front again : List Tree} (leading : ∀ tree ∈ front, isLeading tree = true)
    (sameText : Tree.textOfAll front = Tree.textOfAll (statements.takeWhile isLeading))
    (isAgain : again = front ++ declarationOf instrumentation.entryName
      (instrumentation.modulePath.importSpecifier directory) :: .leaf none .blank ['\n'] ::
        callsWrapped instrumentation (statements.dropWhile isLeading))
    (againWellFormed : (Script.Tree.node none .program again).WellFormed)
    (same : (Script.Tree.node none .program again).text = source) {outcome : Outcome}
    (removed : removeTree source (.node none .program again) directory instrumentation = outcome)
    (rewrites : 0 < (fates [instrumentation.entryName] .plain (.node none .program statements)).count
      .rewritten) :
    outcome.rewritten = (fates [instrumentation.entryName] .plain
        (.node none .program statements)).count .rewritten ∧
      outcome.importRemoved = true ∧ outcome.textOr source = Tree.textOfAll statements := by
  have split := List.takeWhile_append_dropWhile (p := isLeading) (l := statements)
  have inFront : ∀ tree ∈ front, tree.WellFormed := fun tree member =>
    againWellFormed.children tree (isAgain ▸ List.mem_append_left _ member)
  have inRest : ∀ tree ∈ statements.dropWhile isLeading, tree.WellFormed ∧ Tight tree :=
    fun tree member =>
      have inside := (List.dropWhile_sublist _).mem member
      ⟨wellFormed.children tree inside, tight tree inside⟩
  have each := unmarked_behind leading inFront unmarked
  have unusedAmong : instrumentation.entryName ∉
      usedNames.among (front ++ statements.dropWhile isLeading) := by
    rw [usedNamesAmong_append, usedNamesAmong_eq_nil fun tree member =>
      usedNames_leading (inFront tree member) (leading tree member), List.nil_append]
    rw [usedNames, ← split, usedNamesAmong_append] at unused
    exact fun isUsed => unused (List.mem_append_right _ isUsed)
  have imports := imports_importSpecifier resolves
  have names := localNames_declarationOf (.leaf none .blank ['\n'] ::
    callsWrapped instrumentation (statements.dropWhile isLeading)) leading resolves
  have marks := markedCount_injectedCalls (instrumentation.modulePath.importSpecifier directory)
    wellFormed.children each
  rw [← isAgain] at names marks
  have rewritten := removeTree_rewritten source (.node none .program again) directory instrumentation
  rw [names, removed, marks] at rewritten
  have removes : outcome.importRemoved = true := by
    rw [← removed, removeTree_importRemoved_iff_unused source directory instrumentation againWellFormed
      (congrArg Prod.snd names) (by rw [marks]; exact rewrites), isAgain]
    exact importUnused_added imports leading each inRest unusedAmong
  obtain ⟨_, deleted⟩ := removeTree_left directory instrumentation againWellFormed same
    (congrArg Prod.snd names) removed
  have isFirst := (any_imports_declarationOf instrumentation.entryName
    (instrumentation.modulePath.importSpecifier directory) directory
      instrumentation.modulePath).trans imports
  have others : ∀ tree ∈ front,
      (declared? tree).any (·.imports directory instrumentation.modulePath) = false :=
    fun tree member => by rw [declared?_leading (leading tree member)]; rfl
  refine ⟨rewritten, removes, ?_⟩
  rw [deleted removes, isAgain, beforeImport_split isFirst others, afterImport_split isFirst others,
    callsWrapped, textAround_added each inRest (sameText ▸ unindented), Tree.textOfAll_append, sameText,
    ← Tree.textOfAll_append, split]

/-- True if removal can take back what injection does to a script without marked calls: a declaration that
injection adds can be told apart and deleted, or there is one that removal keeps. -/
def CanRestore (instrumentation : Instrumentation) (directory : Path) (tree : Tree) : Prop :=
  match findBinding? tree directory instrumentation.modulePath with
  | none =>
    instrumentation.entryName ∉ usedNames tree ∧
      indentation (Tree.textOfAll (tree.children.takeWhile isLeading)) = 0
  | some binding =>
    ¬ ImportUnused directory instrumentation.modulePath
      (instrumentation.localNames (some binding)).2 instrumentation.marker tree.children

/-- A declaration begins no new line where an import stands behind it. -/
theorem addedLine_of_rewrites (wellFormed : (Script.Tree.node none .program statements).WellFormed)
    {guards : List Text}
    (rewrites : 0 < (fates guards .plain (.node none .program statements)).count .rewritten) :
    addedLine source statements [] = [] := by
  rw [addedLine_nil, if_neg]
  rintro ⟨nothing, _⟩
  rw [fates_behindLeading _ wellFormed.children, nothing] at rewrites
  exact absurd rewrites (Nat.lt_irrefl 0)

section

variable {wrapped : Outcome}

/-- Behind a declaration that injection added, removal leaves the script that it was. -/
theorem exists_restored_added (absolute : directory.isAbsolute = true)
    (moduleAbsolute : instrumentation.modulePath.isAbsolute = true)
    (parsed : parse? source = some (.node none .program statements))
    (injected : injectTree source (.node none .program statements) directory instrumentation = wrapped)
    (rewrites : 0 < wrapped.rewritten)
    (bound : findBinding? (.node none .program statements) directory instrumentation.modulePath = none)
    (unmarked : (Script.Tree.node none .program statements).markedCount [instrumentation.entryName]
      instrumentation.marker = 0)
    (tight : ∀ tree ∈ statements, Tight tree)
    (unused : instrumentation.entryName ∉ usedNames (.node none .program statements))
    (unindented : indentation (Tree.textOfAll (statements.takeWhile isLeading)) = 0)
    (declarable : IsDeclarable instrumentation directory statements)
    (reads : CallsReadBack instrumentation none statements) :
    ∃ again, parse? (wrapped.textOr source) = some (.node none .program again) ∧
      ∀ {restored}, removeTree (wrapped.textOr source) (.node none .program again) directory
          instrumentation = restored →
        restored.rewritten = wrapped.rewritten ∧ restored.importRemoved = true ∧
          restored.textOr (wrapped.textOr source) = source := by
  obtain ⟨same, wellFormed, _⟩ := parse?_sound parsed
  obtain ⟨_, _, _, _, wraps, _⟩ :=
    injectTree_spec directory instrumentation wellFormed same bound localNames_none injected
  rw [wraps] at rewrites
  have resolves := Path.normalize_join_importSpecifier absolute moduleAbsolute
  obtain ⟨front, leading, frontText, _, readsAgain⟩ := parse?_injectedCalls declarable.isIdentifier
    declarable.isPlain parsed declarable.systemLine bound reads
  rw [addedLine_of_rewrites wellFormed rewrites, List.append_nil] at frontText
  rw [injected] at readsAgain
  obtain ⟨againSame, againWellFormed, _⟩ := parse?_sound readsAgain
  refine ⟨_, readsAgain, fun removed => ?_⟩
  obtain ⟨rewritten, removes, text⟩ := removeTree_added wellFormed tight resolves unmarked unused
    unindented leading frontText rfl againWellFormed againSame removed rewrites
  exact ⟨rewritten.trans wraps.symm, removes, text.trans same⟩

/-- With an import of its own that stays, a script is left by removal as it was. -/
theorem exists_restored_kept (parsed : parse? source = some (.node none .program statements))
    (injected : injectTree source (.node none .program statements) directory instrumentation = wrapped)
    (rewrites : 0 < wrapped.rewritten) {binding : ImportBinding}
    (bound : findBinding? (.node none .program statements) directory instrumentation.modulePath =
      some binding)
    (unmarked : (Script.Tree.node none .program statements).markedCount
      (instrumentation.localNames (some binding)).2 instrumentation.marker = 0)
    (tight : ∀ tree ∈ statements, Tight tree)
    (isUsed : ¬ ImportUnused directory instrumentation.modulePath
      (instrumentation.localNames (some binding)).2 instrumentation.marker statements)
    (reads : CallsReadBack instrumentation (some binding) statements) :
    ∃ again, parse? (wrapped.textOr source) = some (.node none .program again) ∧
      ∀ {restored}, removeTree (wrapped.textOr source) (.node none .program again) directory
          instrumentation = restored →
        restored.rewritten = wrapped.rewritten ∧ restored.importRemoved = false ∧
          restored.textOr (wrapped.textOr source) = source := by
  obtain ⟨same, wellFormed, _⟩ := parse?_sound parsed
  obtain ⟨_, _, _, _, wraps, _⟩ :=
    injectTree_spec directory instrumentation wellFormed same bound rfl injected
  have leaves := textOr_injectTree_some wellFormed same bound
  rw [injected] at leaves
  rw [CallsReadBack, ← leaves] at reads
  obtain ⟨againSame, againWellFormed, _⟩ := parse?_sound reads
  refine ⟨_, reads, fun {restored} removed => ?_⟩
  obtain ⟨rewritten, removes, kept, _⟩ := removeTree_wrapped wellFormed tight bound rfl rfl
    againWellFormed againSame removed
  rw [unmarked, Nat.zero_add, ← wraps] at rewritten
  have stays : restored.importRemoved = false := by
    rwa [← Bool.not_eq_true, removes (rewritten ▸ rewrites)]
  refine ⟨rewritten, stays, ?_⟩
  rw [kept stays, map_unwrapTree_eq_self (markedCount_node_eq_zero_iff.mp unmarked).2]
  exact same

end

/-- A script without marked calls is restored by removal, provided that the calls injection wrote are read as
it wrote them. A declaration that injection added is deleted again, and one that was there before is kept. -/
theorem remove_undoes_inject (workingDirectory file : Path) (instrumentation : Instrumentation)
    {tree : Tree} (absolute : workingDirectory.isAbsolute = true)
    (moduleAbsolute : instrumentation.modulePath.isAbsolute = true)
    (parsed : parse? source = some tree) :
    let directory := directoryOf workingDirectory file
    let binding := findBinding? tree directory instrumentation.modulePath
    ∃ wrapped, inject? workingDirectory source file instrumentation = some wrapped ∧
      (0 < wrapped.rewritten →
        tree.markedCount (instrumentation.localNames binding).2 instrumentation.marker = 0 →
        LiteralsAreTight tree →
        CanRestore instrumentation directory tree →
        (binding = none → IsDeclarable instrumentation directory tree.children) →
        CallsReadBack instrumentation binding tree.children →
        ∃ restored,
          remove? workingDirectory (wrapped.textOr source) file instrumentation = some restored ∧
          restored.rewritten = wrapped.rewritten ∧ restored.text = some source ∧
          restored.importRemoved = binding.isNone) := by
  intro directory binding
  obtain ⟨_, _, statements, rfl⟩ := parse?_sound parsed
  refine ⟨injectTree source (.node none .program statements) directory instrumentation,
    by rw [inject?, injectBy?, parsed, Option.map_some], ?_⟩
  generalize injected : injectTree source (.node none .program statements) directory instrumentation =
    wrapped
  intro rewrites unmarked tight canRestore declarable reads
  have isTight := (tight_of_dynamicImports tight).children
  have directoryAbsolute := isAbsolute_directoryOf file absolute
  obtain ⟨again, readsAgain, restored⟩ : ∃ again,
      parse? (wrapped.textOr source) = some (.node none .program again) ∧
      ∀ {restored}, removeTree (wrapped.textOr source) (.node none .program again) directory
          instrumentation = restored →
        restored.rewritten = wrapped.rewritten ∧ restored.importRemoved = binding.isNone ∧
          restored.textOr (wrapped.textOr source) = source := by
    rw [CanRestore] at canRestore
    cases bound : findBinding? (.node none .program statements) directory
        instrumentation.modulePath with
    | none =>
        rw [bound] at canRestore
        rw [show binding = none from bound] at unmarked declarable reads ⊢
        rw [localNames_none] at unmarked
        exact exists_restored_added directoryAbsolute moduleAbsolute parsed injected rewrites bound
          unmarked isTight canRestore.1 canRestore.2 (declarable rfl) reads
    | some found =>
        rw [bound] at canRestore
        rw [show binding = some found from bound] at unmarked reads ⊢
        exact exists_restored_kept parsed injected rewrites bound unmarked isTight canRestore reads
  obtain ⟨rewritten, importRemoved, text⟩ := restored rfl
  refine ⟨_, by rw [remove?, removeBy?, readsAgain, Option.map_some], rewritten, ?_, importRemoved⟩
  rw [removeTree_text_eq rfl (rewritten ▸ rewrites)]
  exact congrArg some text

/-- An import behind a comment, in a script that does not import the entry point. -/
def leadingComment : Text := "//c\nimport('a')".toList

theorem remove_undoes_inject_leadingComment :
    ∃ wrapped restored, inject? ⟨['/']⟩ leadingComment ⟨"/f".toList⟩ smallEntry = some wrapped ∧
      wrapped.rewritten = 1 ∧ wrapped.importAdded = true ∧
      remove? ⟨['/']⟩ (wrapped.textOr leadingComment) ⟨"/f".toList⟩ smallEntry = some restored ∧
      restored.rewritten = 1 ∧ restored.text = some leadingComment ∧
      restored.importRemoved = true := by
  have checked : (parse? leadingComment).any (fun tree =>
      let directory := directoryOf ⟨['/']⟩ ⟨"/f".toList⟩
      let binding := findBinding? tree directory smallEntry.modulePath
      let wrapped := injectTree leadingComment tree directory smallEntry
      binding.isNone && Decidable.decide (wrapped.rewritten = 1 ∧ wrapped.importAdded = true) &&
        Decidable.decide (tree.markedCount (smallEntry.localNames binding).2 smallEntry.marker = 0) &&
        Decidable.decide (LiteralsAreTight tree) &&
        Decidable.decide (smallEntry.entryName ∉ usedNames tree ∧
          indentation (Tree.textOfAll (tree.children.takeWhile isLeading)) = 0) &&
        Decidable.decide (SystemLineLeads tree.children) &&
        Decidable.decide (CallsReadBack smallEntry binding tree.children)) = true := by
    decide +kernel
  have specifier : smallEntry.modulePath.importSpecifier (directoryOf ⟨['/']⟩ ⟨"/f".toList⟩) =
      "./p".toList := by
    decide +kernel
  have plain : IsPlainText "./p".toList := by decide
  obtain ⟨tree, parsed, checked⟩ := (Option.any_eq_true _ _).mp checked
  simp only [Bool.and_eq_true, decide_eq_true_eq] at checked
  obtain ⟨⟨⟨⟨⟨⟨unknown, wraps, added⟩, unmarked⟩, tight⟩, restorable⟩, systemLine⟩, reads⟩ := checked
  obtain ⟨wrapped, injected, restores⟩ :=
    remove_undoes_inject ⟨['/']⟩ ⟨"/f".toList⟩ smallEntry rfl rfl parsed
  have isWrapped := injected
  rw [inject?, injectBy?, parsed, Option.map_some] at isWrapped
  cases isWrapped
  have canRestore : CanRestore smallEntry (directoryOf ⟨['/']⟩ ⟨"/f".toList⟩) tree := by
    rw [CanRestore, Option.isNone_iff_eq_none.mp unknown]
    exact restorable
  have declarable : IsDeclarable smallEntry (directoryOf ⟨['/']⟩ ⟨"/f".toList⟩) tree.children :=
    ⟨by decide, by rw [specifier]; exact plain, systemLine⟩
  obtain ⟨restored, removed, rewritten, text, importRemoved⟩ :=
    restores (by rw [wraps]; exact Nat.one_pos) unmarked tight canRestore (fun _ => declarable) reads
  refine ⟨_, restored, injected, wraps, added, removed, rewritten.trans wraps, text, ?_⟩
  rw [importRemoved, unknown]

/-- A comment in the way of markup behind a blank, in front of the first statement. -/
def indentedMarkup : Text := " <!--c\nimport('a')".toList

/-- The declaration is put between the blank and the comment, and removal takes the blank along with it. -/
theorem remove_undoes_inject_indentedMarkup :
    let instrumentation : Instrumentation := .ofModule ⟨['/']⟩ ⟨"/p".toList⟩
    ∃ wrapped restored,
      inject? ⟨['/']⟩ indentedMarkup ⟨"/f".toList⟩ instrumentation = some wrapped ∧
      wrapped.rewritten = 1 ∧ wrapped.importAdded = true ∧
      remove? ⟨['/']⟩ (wrapped.textOr indentedMarkup) ⟨"/f".toList⟩ instrumentation = some restored ∧
      restored.rewritten = 1 ∧ restored.text = some "<!--c\nimport('a')".toList := by
  have checked : (inject? ⟨['/']⟩ indentedMarkup ⟨"/f".toList⟩
      (.ofModule ⟨['/']⟩ ⟨"/p".toList⟩)).any (fun wrapped =>
    (remove? ⟨['/']⟩ (wrapped.textOr indentedMarkup) ⟨"/f".toList⟩
      (.ofModule ⟨['/']⟩ ⟨"/p".toList⟩)).any fun restored =>
        Decidable.decide (wrapped.rewritten = 1 ∧ wrapped.importAdded = true ∧
          restored.rewritten = 1 ∧ restored.text = some "<!--c\nimport('a')".toList)) = true := by
    decide +kernel
  obtain ⟨wrapped, injected, checked⟩ := (Option.any_eq_true _ _).mp checked
  obtain ⟨restored, removed, checked⟩ := (Option.any_eq_true _ _).mp checked
  obtain ⟨wraps, added, rewritten, text⟩ := of_decide_eq_true checked
  exact ⟨wrapped, restored, injected, wraps, added, removed, rewritten, text⟩

end ImportMeter.Instrument
