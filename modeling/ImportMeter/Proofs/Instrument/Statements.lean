/-
This file proves what removal does to the statements of a script: they are left in order with their
marked calls unwrapped, but for the import of the entry point and the blanks around it. Read again, they
give a second removal nothing to do.
-/
import ImportMeter.Proofs.Instrument.Removal
import ImportMeter.Proofs.Instrument.Unwrapped
import ImportMeter.Proofs.Instrument.Binding

namespace ImportMeter.Instrument

open Script

variable {source : Text} {callees : List Text} {marker : Text}

/-- A whole script is unwrapped statement by statement. -/
theorem unwrapIn_whole {statements : List Tree}
    (wellFormed : (Script.Tree.node none .program statements).WellFormed)
    (same : (Script.Tree.node none .program statements).text = source) :
    unwrapIn source callees marker (.node none .program statements) ⟨0, source.length⟩ 0 =
      Tree.textOfAll (statements.map (unwrapTree callees marker)) := by
  have stands : Text.StandsAt source 0 (Script.Tree.node none .program statements).text := by
    rw [same]
    exact .whole source
  have covers : (⟨0, source.length⟩ : Range).contains
      ⟨0, 0 + (Script.Tree.node none .program statements).width⟩ = true := by
    rw [Range.contains_iff, Tree.width_eq, same]
    simp only
    omega
  rw [spelled source callees marker _ wellFormed _ _ stands covers,
    unwrapTree_unmarked (Tree.isMarked_eq_false (by simp [Tree.kind])), Tree.text_node]

namespace Around

variable (around : Around)

/-- The parts of the script in front of the declaration and behind it. -/
theorem unwrapIn_parts (range : Range) :
    unwrapIn around.text callees marker around.tree range 0 =
      unwrapIn.among around.text callees marker around.before range 0 ++
        (unwrapIn around.text callees marker around.declaration range around.statement.start ++
          unwrapIn.among around.text callees marker around.after range around.statement.stop) := by
  rw [tree, unwrapIn_unmarked (MarkedCall.ofPlace?_eq_none (by simp [Tree.kind])),
    unwrapInAmong_append, unwrapIn.among, Nat.zero_add]
  rfl

/-- No edit stands across the ends of the declaration. -/
theorem clean_statement (callees : List Text) (marker : Text) :
    ∀ edit ∈ pending around.text callees marker around.tree 0,
      edit.range.stop ≤ around.line.start ∨
        (around.statement.start ≤ edit.range.start ∧ edit.range.stop ≤ around.statement.stop) ∨
          around.line.stop ≤ edit.range.start := by
  intro edit member
  rw [pending_eq] at member
  simp only [List.mem_append] at member
  rcases member with inBefore | inDeclaration | inAfter
  · exact .inl (around.before_inOrder.bounds edit inBefore).2.2
  · have bounds := (pending_inOrder around.text callees marker around.declaration
      around.statement.start).bounds edit inDeclaration
    exact .inr (.inl ⟨bounds.1, bounds.2.2⟩)
  · exact .inr (.inr (around.after_inOrder.bounds edit inAfter).1)

/-- What is left in front of the deleted line are the unwrapped statements before the declaration, but
for blanks in front of that. -/
theorem unwrapIn_front :
    unwrapIn around.text callees marker around.tree ⟨0, around.line.start⟩ 0 ++
        around.text.slice around.line.start around.statement.start =
      Tree.textOfAll (around.before.map (unwrapTree callees marker)) := by
  obtain ⟨low, high, within, _, _⟩ := around.line_spec
  have wellFormed : around.tree.WellFormed := around.wellFormed
  have proper : around.statement.start ≤ around.statement.stop := Nat.le_add_right _ _
  have edits := around.clean_statement callees marker
  have untouched : unwrapIn around.text callees marker around.tree
      ⟨around.line.start, around.statement.start⟩ 0 =
        around.text.slice around.line.start around.statement.start := by
    refine unwrapIn_untouched wellFormed around.text_tree low (by omega) fun edit member => ?_
    have meets := edits edit member
    omega
  have cut : unwrapIn around.text callees marker around.tree ⟨0, around.statement.start⟩ 0 =
      unwrapIn around.text callees marker around.tree ⟨0, around.line.start⟩ 0 ++
        unwrapIn around.text callees marker around.tree
          ⟨around.line.start, around.statement.start⟩ 0 := by
    refine unwrapIn_cut wellFormed around.text_tree (Nat.zero_le _) low (by omega)
      fun position among edit member => ?_
    have meets := edits edit member
    have solid := pending_solid wellFormed edit member
    simp only [List.mem_cons, List.not_mem_nil, or_false] at among
    omega
  have front : unwrapIn.among around.text callees marker around.before
      ⟨0, around.statement.start⟩ 0 =
        Tree.textOfAll (around.before.map (unwrapTree callees marker)) :=
    spelledAmong (fun tree _ => spelled _ _ _ tree)
      (fun tree member => around.wellFormed.children tree (List.mem_append_left _ member))
      around.before_stands ⟨Nat.le_refl _, by rw [Nat.zero_add]; exact Nat.le_refl _⟩
  have declaration : unwrapIn around.text callees marker around.declaration
      ⟨0, around.statement.start⟩ around.statement.start = [] :=
    unwrapIn_apart (around.wellFormed.children around.declaration (by simp)) (.inr (Nat.le_refl _))
  have behind : unwrapIn.among around.text callees marker around.after
      ⟨0, around.statement.start⟩ around.statement.stop = [] :=
    unwrapInAmong_apart (fun tree member => around.wellFormed.children tree (by simp [member]))
      (.inr proper)
  rw [← untouched, ← cut, unwrapIn_parts, front, declaration, behind, List.append_nil,
    List.append_nil]

/-- What is left behind the deleted line are the unwrapped statements after the declaration, but for
blanks behind that. -/
theorem unwrapIn_behind :
    around.text.slice around.statement.stop around.line.stop ++
        unwrapIn around.text callees marker around.tree ⟨around.line.stop, around.text.length⟩ 0 =
      Tree.textOfAll (around.after.map (unwrapTree callees marker)) := by
  obtain ⟨low, high, within, _, _⟩ := around.line_spec
  have wellFormed : around.tree.WellFormed := around.wellFormed
  have proper : around.statement.start ≤ around.statement.stop := Nat.le_add_right _ _
  have edits := around.clean_statement callees marker
  have untouched : unwrapIn around.text callees marker around.tree
      ⟨around.statement.stop, around.line.stop⟩ 0 =
        around.text.slice around.statement.stop around.line.stop := by
    refine unwrapIn_untouched wellFormed around.text_tree high within fun edit member => ?_
    have meets := edits edit member
    omega
  have cut : unwrapIn around.text callees marker around.tree
        ⟨around.statement.stop, around.text.length⟩ 0 =
      unwrapIn around.text callees marker around.tree
          ⟨around.statement.stop, around.line.stop⟩ 0 ++
        unwrapIn around.text callees marker around.tree ⟨around.line.stop, around.text.length⟩ 0 := by
    refine unwrapIn_cut wellFormed around.text_tree high within (Nat.le_refl _)
      fun position among edit member => ?_
    have meets := edits edit member
    have inside := pending_inside around.text_tree edit member
    simp only [Range.contains_iff] at inside
    simp only [List.mem_cons, List.not_mem_nil, or_false] at among
    omega
  have behind : unwrapIn.among around.text callees marker around.after
      ⟨around.statement.stop, around.text.length⟩ around.statement.stop =
        Tree.textOfAll (around.after.map (unwrapTree callees marker)) :=
    spelledAmong (fun tree _ => spelled _ _ _ tree)
      (fun tree member => around.wellFormed.children tree (by simp [member])) around.after_stands
      ⟨Nat.le_refl _, Nat.le_of_eq around.length_text.symm⟩
  have declaration : unwrapIn around.text callees marker around.declaration
      ⟨around.statement.stop, around.text.length⟩ around.statement.start = [] :=
    unwrapIn_apart (around.wellFormed.children around.declaration (by simp)) (.inl (Nat.le_refl _))
  have front : unwrapIn.among around.text callees marker around.before
      ⟨around.statement.stop, around.text.length⟩ 0 = [] :=
    unwrapInAmong_apart
      (fun tree member => around.wellFormed.children tree (List.mem_append_left _ member))
      (.inl (by rw [Nat.zero_add]; exact proper))
  rw [← untouched, ← cut, unwrapIn_parts, front, declaration, behind, List.nil_append,
    List.nil_append]

end Around

/-- The statements of a script without the first default import of a module, if that is removed. -/
def remaining (directory target : Path) (statements : List Tree) (removed : Bool) : List Tree :=
  if removed then
    statements.eraseP fun tree => (declared? tree).any (·.imports directory target)
  else statements

/-- Removal leaves the statements of a script in order, with all marked calls unwrapped. If the import of
the entry point is deleted, the blanks next to it are the only other thing that goes. -/
theorem remove_statements (workingDirectory file : Path) (instrumentation : Instrumentation)
    {tree : Tree} (parsed : parse? source = some tree) :
    let directory := directoryOf workingDirectory file
    let binding := findBinding? tree directory instrumentation.modulePath
    let callees := (instrumentation.localNames binding).2
    let unwrapped := List.map (unwrapTree callees instrumentation.marker)
    ∃ statements outcome, tree = .node none .program statements ∧
      remove? workingDirectory source file instrumentation = some outcome ∧
      (∀ statement ∈ unwrapped statements, statement.WellFormed ∧
        statement.markedCount callees instrumentation.marker = 0) ∧
      (outcome.importRemoved = false →
        outcome.textOr source = Tree.textOfAll (unwrapped statements)) ∧
      (outcome.importRemoved = true →
        ∃ declaration before after first front behind second,
          statements = before ++ declaration :: after ∧
          declared? declaration = binding.map declaredBy ∧
          remaining directory instrumentation.modulePath statements true = before ++ after ∧
          Tree.textOfAll (unwrapped before) = first ++ front ∧
          Tree.textOfAll (unwrapped after) = behind ++ second ∧
          (∀ letter ∈ front ++ behind, isBlank letter = true) ∧
          outcome.textOr source = first ++ second) := by
  intro directory binding callees unwrapped
  obtain ⟨same, wellFormed, statements, rfl⟩ := parse?_sound parsed
  have text := removeTree_text directory instrumentation wellFormed same rfl rfl (fun _ => rfl) rfl
  refine ⟨statements, removeTree source (.node none .program statements) directory instrumentation,
    rfl, ?_, ?_, ?_, ?_⟩
  · rw [remove?, removeBy?, parsed, Option.map_some]
  · intro statement member
    obtain ⟨original, isOriginal, rfl⟩ := List.mem_map.mp member
    have originalWellFormed := wellFormed.children original isOriginal
    exact ⟨wellFormed_unwrapTree originalWellFormed, markedCount_unwrapTree originalWellFormed⟩
  · intro kept
    rw [text.1 kept, unwrapIn_whole wellFormed same]
  · intro removed
    obtain ⟨found, bound, left, _⟩ := text.2 removed
    obtain ⟨before, after, rfl, start, isImport, declares, imports, others⟩ :=
      findBinding?_split bound
    let around : Around := ⟨before, found.statement.focus, after, isImport, wellFormed⟩
    obtain rfl : around.text = source := around.text_tree.symm.trans same
    have isStatement : around.statement = found.statement.range := by
      rw [Place.range, Place.stop, start]
      rfl
    rw [← isStatement] at left
    obtain ⟨_, _, _, front, behind⟩ := around.line_spec
    refine ⟨found.statement.focus, before, after, _, _, _, _, rfl, ?_, ?_, around.unwrapIn_front.symm,
      around.unwrapIn_behind.symm, ?_, left⟩
    · rw [declares]
      exact (congrArg (Option.map declaredBy) bound).symm
    · rw [remaining, if_pos rfl, List.eraseP_append_right _ fun tree member =>
        Bool.eq_false_iff.mp (others tree member), List.eraseP_cons_of_pos]
      rw [declares]
      exact imports
    · intro letter member
      rcases List.mem_append.mp member with inFront | isBehind
      · obtain ⟨position, low, high, found⟩ := Text.mem_slice inFront
        exact front position letter low high found
      · obtain ⟨position, low, high, found⟩ := Text.mem_slice isBehind
        exact behind position letter low high found

/-- A marked call in the path of another, and an import that is used for nothing else. -/
def nestedAndImported : Text := "import p from './p';p(p('a',0,0,'m',),0,0,'m')".toList

theorem remove_statements_nestedAndImported :
    ∃ declaration before after first front behind second,
      parse? nestedAndImported = some (.node none .program (before ++ declaration :: after)) ∧
        Tree.textOfAll (before.map (unwrapTree [smallEntry.entryName] smallEntry.marker)) =
          first ++ front ∧
        Tree.textOfAll (after.map (unwrapTree [smallEntry.entryName] smallEntry.marker)) =
          behind ++ second ∧
        (∀ letter ∈ front ++ behind, isBlank letter = true) ∧
        "import(import('a',))".toList = first ++ second := by
  have named : (parse? nestedAndImported).any (fun tree => Decidable.decide ((smallEntry.localNames
      (findBinding? tree (directoryOf ⟨['/']⟩ ⟨"/f".toList⟩) smallEntry.modulePath)).2 =
        [smallEntry.entryName])) = true := by decide +kernel
  have computed : remove? ⟨['/']⟩ nestedAndImported ⟨"/f".toList⟩ smallEntry =
      some ⟨some "import(import('a',))".toList, 2, false, true, [], none⟩ := by
    decide +kernel
  obtain ⟨tree, parsed, named⟩ := (Option.any_eq_true _ _).mp named
  obtain ⟨statements, outcome, rfl, removed, _, _, left⟩ :=
    remove_statements ⟨['/']⟩ ⟨"/f".toList⟩ smallEntry parsed
  rw [computed] at removed
  cases removed
  rw [of_decide_eq_true named] at left
  obtain ⟨declaration, before, after, first, front, behind, second, rfl, _, _, inFront, isBehind,
    blank, text⟩ := left rfl
  exact ⟨declaration, before, after, first, front, behind, second, parsed, inFront, isBehind, blank,
    text⟩

/-- A declaration that parts two lines which would otherwise be one expression. -/
def joinedLines : Text := "a\nimport p from './p';\n/b/.test(p('c',0,0,'m'))".toList

/-- What is left need not be a script: the deleted line may be all that parts two statements. -/
theorem remove_statements_joinedLines :
    ∃ outcome left, remove? ⟨['/']⟩ joinedLines ⟨"/f".toList⟩ smallEntry = some outcome ∧
      outcome.text = some left ∧ parse? left = none := by
  have computed : remove? ⟨['/']⟩ joinedLines ⟨"/f".toList⟩ smallEntry =
      some ⟨some "a\n/b/.test(import('c'))".toList, 1, false, true, [], none⟩ := by
    decide +kernel
  exact ⟨_, _, computed, rfl, by decide +kernel⟩

/-- With fewer names there are fewer marked calls. -/
theorem isMarked_of_subset {names : List Text} (fewer : names ⊆ callees) {tree : Tree}
    (marked : tree.isMarked names marker = true) : tree.isMarked callees marker = true := by
  rw [Tree.isMarked, Bool.and_eq_true, Bool.and_eq_true] at marked ⊢
  obtain ⟨⟨isCall, called⟩, tagged⟩ := marked
  refine ⟨⟨isCall, ?_⟩, tagged⟩
  obtain ⟨name, isName, isCallee⟩ := (Option.any_eq_true _ _).mp called
  exact (Option.any_eq_true _ _).mpr ⟨name, isName, by
    rw [List.contains_iff_mem] at isCallee ⊢
    exact fewer isCallee⟩

theorem markedCount_of_subset {names : List Text} (fewer : names ⊆ callees) {tree : Tree}
    (none : tree.markedCount callees marker = 0) : tree.markedCount names marker = 0 := by
  induction tree using Tree.childInduction with
  | leaf => rfl
  | node role kind children childHypothesis =>
      obtain ⟨unmarked, inside⟩ := markedCount_node_eq_zero_iff.mp none
      refine markedCount_node_eq_zero_iff.mpr ⟨Bool.eq_false_iff.mpr fun marked => ?_,
        fun child member => childHypothesis child member (inside child member)⟩
      rw [isMarked_of_subset fewer marked] at unmarked
      cases unmarked

/-- White space and comments are no marked calls. -/
theorem markedCount_trivia {tree : Tree} (wellFormed : tree.WellFormed)
    (trivia : tree.isTrivia = true) : tree.markedCount callees marker = 0 := by
  rw [wellFormed.eq_leaf (Tree.isToken_of_isTrivia trivia)]
  rfl

theorem removeTree_unchanged (source : Text) {tree : Tree} {directory : Path}
    {instrumentation : Instrumentation}
    (none : tree.markedCount (instrumentation.localNames
      (findBinding? tree directory instrumentation.modulePath)).2 instrumentation.marker = 0) :
    removeTree source tree directory instrumentation = .unchanged := by
  rw [← length_markedCalls, List.length_eq_zero_iff] at none
  simp only [removeTree]
  exact if_pos (List.isEmpty_iff.mpr none)

/-- What removal leaves, read again as the same statements, gives a second removal nothing to do, unless
the import of the entry point is gone and another one imports it under a name of its own. -/
theorem remove_remove (workingDirectory file : Path) (instrumentation : Instrumentation)
    {tree : Tree} (parsed : parse? source = some tree) :
    let directory := directoryOf workingDirectory file
    let binding := findBinding? tree directory instrumentation.modulePath
    let callees := (instrumentation.localNames binding).2
    ∃ outcome, remove? workingDirectory source file instrumentation = some outcome ∧
      ∀ again, parse? (outcome.textOr source) = some again →
        let kept := remaining directory instrumentation.modulePath tree.children outcome.importRemoved
        withoutTrivia again.children =
            withoutTrivia (kept.map (unwrapTree callees instrumentation.marker)) →
          (outcome.importRemoved = true → ∀ other name,
            (kept.filterMap declared?).find? (·.imports directory instrumentation.modulePath) =
              some other → other.defaultLocal = some name → name ∈ callees) →
          remove? workingDirectory (outcome.textOr source) file instrumentation =
            some .unchanged := by
  intro directory binding callees
  refine ⟨removeTree source tree directory instrumentation,
    by rw [remove?, removeBy?, parsed, Option.map_some], ?_⟩
  generalize removeTree source tree directory instrumentation = outcome
  intro again reads kept same names
  obtain ⟨_, wellFormed, statements, rfl⟩ := parse?_sound parsed
  obtain ⟨_, againWellFormed, againStatements, rfl⟩ := parse?_sound reads
  have keptWellFormed : ∀ statement ∈ kept, statement.WellFormed := by
    intro statement member
    refine wellFormed.children statement ?_
    simp only [kept, remaining] at member
    split at member
    · exact List.mem_of_mem_eraseP member
    · exact member
  have declares : againStatements.filterMap declared? = kept.filterMap declared? := by
    rw [← filterMap_declared?_withoutTrivia againStatements]
    refine (congrArg (List.filterMap declared?) same).trans ?_
    rw [filterMap_declared?_withoutTrivia, filterMap_declared?_rewrite (descends_unwrapTree _ _) keptWellFormed]
  have found := declaredBy_findBinding? againStatements directory instrumentation.modulePath
  rw [declares] at found
  have fewer : (instrumentation.localNames (findBinding? (.node none .program againStatements)
      directory instrumentation.modulePath)).2 ⊆ callees := by
    intro name member
    rcases mem_localNames.mp member with isEntry | isLocal
    · exact mem_localNames.mpr (.inl isEntry)
    · obtain ⟨other, bound, isName⟩ := Option.bind_eq_some_iff.mp isLocal
      rw [bound, Option.map_some] at found
      cases isRemoved : outcome.importRemoved with
      | true => exact names isRemoved (declaredBy other) name found.symm isName
      | false =>
          refine mem_localNames.mpr (.inr ?_)
          have whole : kept = statements := by
            simp only [kept, isRemoved, remaining, Bool.false_eq_true, if_false]
            rfl
          have first : binding.map declaredBy = some (declaredBy other) := by
            rw [found, whole]
            exact declaredBy_findBinding? statements directory instrumentation.modulePath
          obtain ⟨own, isOwn, sameNames⟩ := Option.map_eq_some_iff.mp first
          rw [isOwn, Option.bind_some, ← isName]
          exact congrArg Declared.defaultLocal sameNames
  have none : (Script.Tree.node none .program againStatements).markedCount callees
      instrumentation.marker = 0 := by
    refine markedCount_node_eq_zero_iff.mpr ⟨Tree.isMarked_eq_false (by simp [Tree.kind]), ?_⟩
    intro statement member
    cases trivia : statement.isTrivia with
    | true => exact markedCount_trivia (againWellFormed.children statement member) trivia
    | false =>
        have inKept : statement ∈ withoutTrivia
            (kept.map (unwrapTree callees instrumentation.marker)) := by
          rw [← same]
          exact List.mem_filter.mpr ⟨member, by rw [trivia]; rfl⟩
        obtain ⟨original, isOriginal, rfl⟩ := List.mem_map.mp (List.mem_filter.mp inKept).1
        exact markedCount_unwrapTree (keptWellFormed original isOriginal)
  rw [remove?, removeBy?, reads, Option.map_some]
  exact congrArg some (removeTree_unchanged _ (markedCount_of_subset fewer none))

theorem remove_remove_nestedAndImported :
    remove? ⟨['/']⟩ nestedAndImported ⟨"/f".toList⟩ smallEntry =
        some ⟨some "import(import('a',))".toList, 2, false, true, [], none⟩ ∧
      remove? ⟨['/']⟩ "import(import('a',))".toList ⟨"/f".toList⟩ smallEntry = some .unchanged := by
  have computed : remove? ⟨['/']⟩ nestedAndImported ⟨"/f".toList⟩ smallEntry =
      some ⟨some "import(import('a',))".toList, 2, false, true, [], none⟩ := by
    decide +kernel
  have statements : (parse? nestedAndImported).any (fun tree =>
      (parse? "import(import('a',))".toList).any fun again =>
        let directory := directoryOf ⟨['/']⟩ ⟨"/f".toList⟩
        let binding := findBinding? tree directory smallEntry.modulePath
        let kept := remaining directory smallEntry.modulePath tree.children true
        Decidable.decide (withoutTrivia again.children = withoutTrivia (kept.map
            (unwrapTree (smallEntry.localNames binding).2 smallEntry.marker))) &&
          ((kept.filterMap declared?).find? (·.imports directory smallEntry.modulePath)).isNone) =
      true := by decide +kernel
  obtain ⟨tree, parsed, rest⟩ := (Option.any_eq_true _ _).mp statements
  obtain ⟨again, reads, same⟩ := (Option.any_eq_true _ _).mp rest
  rw [Bool.and_eq_true, decide_eq_true_eq, Option.isNone_iff_eq_none] at same
  obtain ⟨outcome, removed, unchanged⟩ :=
    remove_remove ⟨['/']⟩ ⟨"/f".toList⟩ smallEntry parsed
  rw [computed] at removed
  cases removed
  refine ⟨computed, unchanged again reads same.1 fun _ other name found => ?_⟩
  rw [same.2] at found
  cases found

/-- Two imports of the entry point, each with a marked call of its own. -/
def twoImports : Text := "import p from './p';import q from './p';p('a',0,0,'m');q('b',0,0,'m')".toList

/-- The second of two imports is found when the first is gone. -/
theorem remove_remove_twoImports :
    ∃ outcome left, remove? ⟨['/']⟩ twoImports ⟨"/f".toList⟩ smallEntry = some outcome ∧
      outcome.text = some left ∧ remove? ⟨['/']⟩ left ⟨"/f".toList⟩ smallEntry =
        some ⟨some "import('a');import('b')".toList, 1, false, true, [], none⟩ := by
  have computed : remove? ⟨['/']⟩ twoImports ⟨"/f".toList⟩ smallEntry =
      some ⟨some "import q from './p';import('a');q('b',0,0,'m')".toList, 1, false, true, [], none⟩ := by
    decide +kernel
  exact ⟨_, _, computed, rfl, by decide +kernel⟩

end ImportMeter.Instrument
