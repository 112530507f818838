/-
This file proves that injection and removal give a text only where they change something, and that the
text is then another one than before.
-/
import ImportMeter.Proofs.Instrument.Declaration
import ImportMeter.Proofs.Instrument.Shrinking

namespace ImportMeter.Text

variable {first second : Text}

/-- True for texts that go on differently behind a common front. -/
def Forks (first second : Text) : Prop :=
  ∃ front letter rest other behind, letter ≠ other ∧ first = front ++ letter :: rest ∧
    second = front ++ other :: behind

namespace Forks

theorem ne (forks : Forks first second) : first ≠ second := by
  obtain ⟨front, letter, rest, other, behind, different, rfl, rfl⟩ := forks
  exact fun same => different (List.cons.inj (List.append_cancel_left same)).1

theorem prepend (forks : Forks first second) (front : Text) : Forks (front ++ first) (front ++ second) := by
  obtain ⟨common, letter, rest, other, behind, different, rfl, rfl⟩ := forks
  exact ⟨front ++ common, letter, rest, other, behind, different, by simp, by simp⟩

theorem append (forks : Forks first second) (rest behind : Text) :
    Forks (first ++ rest) (second ++ behind) := by
  obtain ⟨front, letter, own, other, others, different, rfl, rfl⟩ := forks
  exact ⟨front, letter, own ++ rest, other, others ++ behind, different, by simp, by simp⟩

end Forks

/-- Of two texts that differ one goes on behind the other, unless they fork. -/
theorem forks_or_longer (different : first ≠ second) :
    Forks first second ∨ (∃ letter rest, second = first ++ letter :: rest) ∨
      ∃ letter rest, first = second ++ letter :: rest := by
  induction first generalizing second with
  | nil =>
      obtain ⟨letter, rest, rfl⟩ := List.exists_cons_of_ne_nil different.symm
      exact .inr (.inl ⟨letter, rest, rfl⟩)
  | cons letter first inductionHypothesis =>
      cases second with
      | nil => exact .inr (.inr ⟨letter, first, rfl⟩)
      | cons other second =>
          by_cases same : letter = other
          · subst same
            rcases inductionHypothesis fun same => different (by rw [same]) with
              forks | ⟨next, rest, rfl⟩ | ⟨next, rest, rfl⟩
            · exact .inl (forks.prepend [letter])
            · exact .inr (.inl ⟨next, rest, rfl⟩)
            · exact .inr (.inr ⟨next, rest, rfl⟩)
          · exact .inl ⟨[], letter, first, other, second, same, rfl, rfl⟩

end ImportMeter.Text

namespace ImportMeter.Instrument

open Script

variable {source : Text} {guards : List Text} {localName marker : Text} {standing : Standing}

/-! ### Calls in the place of imports -/

/-- True for a name that is not taken for `import`. -/
structure IsLocalName (name : Text) : Prop where
  isIdentifier : IsIdentifier name
  notImport : name ≠ Word.importWord

instance (name : Text) : Decidable (IsLocalName name) :=
  decidable_of_iff (IsIdentifier name ∧ name ≠ Word.importWord)
    ⟨fun both => ⟨both.1, both.2⟩, fun isLocalName => ⟨isLocalName.isIdentifier, isLocalName.notImport⟩⟩

/-- A call of a name differs from a call of `import` where the names do, or where the shorter one ends. -/
theorem forks_importWord (isLocalName : IsLocalName localName) {letter : Char}
    (notPart : isNamePart letter = false) (notEscape : letter ≠ '\\') (rest behind : Text) :
    Text.Forks (Word.importWord ++ letter :: rest) (localName ++ '(' :: behind) := by
  have parts : ∀ letter ∈ Word.importWord, isNamePart letter = true := List.all_eq_true.mp (by decide)
  rcases Text.forks_or_longer isLocalName.notImport.symm with
    forks | ⟨next, others, rfl⟩ | ⟨next, others, same⟩
  · exact forks.append _ _
  · have opens := isLocalName.isIdentifier.opens parts
    refine ⟨Word.importWord, letter, rest, next, others ++ '(' :: behind, ?_, rfl, by simp⟩
    rintro rfl
    rcases opens with isPart | isEscape
    · rw [isPart] at notPart
      cases notPart
    · exact notEscape isEscape
  · refine ⟨localName, next, others ++ letter :: rest, '(', behind, ?_, by rw [same]; simp, rfl⟩
    rintro rfl
    exact absurd (parts '(' (by rw [same]; simp)) (by decide)

/-- The marked call of a path reads differently from the import of it. -/
theorem forks_callOf (isLocalName : IsLocalName localName) (marker : Text) (plain : PlainImport)
    (builtBy : Rule.BuiltBy grammar IsBuilder plain.tree) :
    Text.Forks plain.tree.text (callOf localName marker plain.tree).text := by
  obtain ⟨letter, rest, opens, notPart, notEscape⟩ : ∃ letter rest,
      Tree.textOfAll (plain.middle ++ [plain.list]) = letter :: rest ∧ isNamePart letter = false ∧
        letter ≠ '\\' := by
    cases middle : plain.middle with
    | nil => exact ⟨'(', _, rfl, by decide, by decide⟩
    | cons tree others =>
        have inside : tree ∈ plain.tree.children := by simp [PlainImport.tree, Tree.children, middle]
        obtain ⟨letter, rest, same, outside⟩ := opens_between (builtBy.children tree inside)
          (plain.between tree (by simp [middle]))
        refine ⟨letter, rest ++ Tree.textOfAll (others ++ [plain.list]), ?_, outside⟩
        rw [List.cons_append, Tree.textOfAll_cons, same, List.cons_append]
  have whole : plain.tree.text = Word.importWord ++ letter :: rest := by
    rw [PlainImport.tree, Tree.text_node, List.cons_append, Tree.textOfAll_cons, opens, Tree.text_leaf]
  rw [whole, text_callOf]
  simp only [List.append_assoc, List.cons_append]
  exact forks_importWord isLocalName notPart notEscape _ _

/-! ### Wrapped trees -/

theorem forks_map_wrapTree {trees : List Tree}
    (each : ∀ tree ∈ trees, .rewritten ∈ fates guards standing tree →
      Text.Forks tree.text (wrapTree guards localName marker standing tree).text)
    (some : .rewritten ∈ fates.among guards standing trees) :
    Text.Forks (Tree.textOfAll trees)
      (Tree.textOfAll (trees.map (wrapTree guards localName marker standing))) := by
  induction trees with
  | nil => cases some
  | cons tree trees inductionHypothesis =>
      obtain ⟨own, others⟩ := List.forall_mem_cons.mp each
      rw [List.map_cons, Tree.textOfAll_cons, Tree.textOfAll_cons]
      by_cases first : .rewritten ∈ fates guards standing tree
      · exact (own first).append _ _
      · rw [fates.among, List.mem_append] at some
        rw [wrapTree_eq_self first]
        exact (inductionHypothesis others (some.resolve_left first)).prepend tree.text

/-- The first import that is rewritten makes the difference. -/
theorem forks_wrapTree (isLocalName : IsLocalName localName) {tree : Tree} (wellFormed : tree.WellFormed)
    (builtBy : Rule.BuiltBy grammar IsBuilder tree) (some : .rewritten ∈ fates guards standing tree) :
    Text.Forks tree.text (wrapTree guards localName marker standing tree).text := by
  induction tree using Tree.childInduction generalizing standing with
  | leaf role kind letters =>
      rw [(WithoutImports.leaf role kind letters).fates] at some
      cases some
  | node role kind children childHypothesis =>
      cases rewritten : isRewritten standing (.node role kind children) with
      | true =>
          obtain ⟨plain, same, _⟩ := exists_plainImport rewritten wellFormed
          rw [wrapTree_rewritten rewritten, ← same]
          exact forks_callOf isLocalName marker plain (same ▸ builtBy)
      | false =>
          rw [fates, List.mem_append, rewritten_mem_fateAt, rewritten] at some
          rw [wrapTree_other rewritten, Tree.text_node, Tree.text_node]
          exact forks_map_wrapTree (fun child member =>
            childHypothesis child member (wellFormed.children child member) (builtBy.children child member))
            (some.resolve_left Bool.false_ne_true)

/-! ### The added declaration -/

section

variable {name specifier : Text} {rewrite : Tree → Tree} {fuel : Nat} {statements : List Tree}

/-- Statements whose text begins with a declaration that is put in front of all of them begin with it
themselves, and then the others are in the same case. -/
theorem exists_behindAdded (isIdentifier : IsIdentifier name) (plain : IsPlainText specifier)
    (declaration : rewrite (declarationOf name specifier) = declarationOf name specifier)
    (newLine : rewrite (.leaf none .blank ['\n']) = .leaf none .blank ['\n'])
    (found : statementsOf fuel (Tree.textOfAll statements) = some statements)
    (enough : (Tree.textOfAll statements).length + 20 < fuel)
    (same : Tree.textOfAll statements =
      (declarationOf name specifier).text ++ '\n' :: Tree.textOfAll (statements.map rewrite)) :
    ∃ others, statementsOf fuel (Tree.textOfAll others) = some others ∧
      (Tree.textOfAll others).length < (Tree.textOfAll statements).length ∧
      Tree.textOfAll others =
        (declarationOf name specifier).text ++ '\n' :: Tree.textOfAll (others.map rewrite) := by
  rw [same, text_declarationOf_append] at found enough
  rw [statementsOf_declaration isIdentifier plain enough, Option.map_eq_some_iff] at found
  obtain ⟨behind, found, rfl⟩ := found
  rw [List.map_cons, declaration] at found same enough
  -- What is left begins with the declaration as well, so that the new line is a blank of its own.
  generalize isLeft : Tree.textOfAll (declarationOf name specifier :: behind.map rewrite) = left at *
  have stops : ∀ letter, left.head? = some letter → isBlank letter = false := by
    intro letter isHead
    rw [← isLeft, Tree.textOfAll_cons, text_declarationOf_append] at isHead
    cases isHead
    decide
  have leads : Leads [.leaf none .blank ['\n']] left ('\n' :: left) :=
    .blanks (List.forall_mem_singleton.mpr rfl) stops
  have shorter : ('\n' :: left).length + 4 < fuel := by
    rw [← text_declarationOf_append, List.length_append] at enough
    omega
  rw [statementsOf_leads leads shorter, Option.map_eq_some_iff] at found
  obtain ⟨others, found, rfl⟩ := found
  have behindLine : Tree.textOfAll others = left := (List.cons.inj (List.append_cancel_left same)).2
  refine ⟨others, by rw [behindLine, found], ?_, ?_⟩
  · rw [same, behindLine, List.length_append, List.length_cons]
    omega
  · rw [behindLine, ← isLeft, List.singleton_append, List.map_cons, newLine]
    rfl

/-- No text begins with a declaration that is put in front of all of it. -/
theorem textOfAll_ne_added (isIdentifier : IsIdentifier name) (plain : IsPlainText specifier)
    (declaration : rewrite (declarationOf name specifier) = declarationOf name specifier)
    (newLine : rewrite (.leaf none .blank ['\n']) = .leaf none .blank ['\n'])
    (found : statementsOf fuel (Tree.textOfAll statements) = some statements)
    (enough : (Tree.textOfAll statements).length + 20 < fuel) :
    Tree.textOfAll statements ≠
      (declarationOf name specifier).text ++ '\n' :: Tree.textOfAll (statements.map rewrite) := by
  generalize isLength : (Tree.textOfAll statements).length = length at enough
  induction length using Nat.strongRecOn generalizing statements with
  | ind length shorterHypothesis =>
      intro same
      subst isLength
      obtain ⟨others, foundOthers, shorter, again⟩ :=
        exists_behindAdded isIdentifier plain declaration newLine found enough same
      exact shorterHypothesis _ shorter foundOthers rfl (by omega) again

end

/-- Where something of the gap in front of the line for the system does not lead the script, what does not
lead begins with no part of a name. -/
theorem head_dropWhile_isLeading {tree : Tree} {statements : List Tree}
    (parsed : parse? source = some (.node none .program statements))
    (member : tree ∈ (hashBangOf source).1) (notLeading : isLeading tree = false) :
    ∃ letter rest, Tree.textOfAll (statements.dropWhile isLeading) = letter :: rest ∧
      isNamePart letter = false := by
  obtain ⟨behind, rfl, _⟩ := exists_behindHashBang parsed (Nat.le_refl _)
  rcases hashBangOf_cases source with none | ⟨gap, body, rest, hashBang⟩
  · rw [none] at member
    cases member
  · have isGap := (gapOf_sound true (source.length + 1) source).1
    rw [hashBang.gapOf_eq] at isGap
    rw [hashBang.hashBangOf_eq] at member ⊢
    have stays : gap.dropWhile isLeading ≠ [] := by
      rw [Ne, List.dropWhile_eq_nil_iff]
      intro every
      rcases List.mem_append.mp member with inGap | isLine
      · rw [every tree inGap] at notLeading
        cases notLeading
      · rw [List.mem_singleton.mp isLine] at notLeading
        cases notLeading
    obtain ⟨first, others, begins⟩ := List.exists_cons_of_ne_nil stays
    have inGap : first ∈ gap := (List.dropWhile_sublist _).mem (by rw [begins]; exact List.mem_cons_self)
    obtain ⟨kind, letters, rfl, shape⟩ := isGap first inGap
    obtain ⟨letter, others, rfl, notPart, _⟩ := shape.opens
    rw [List.append_assoc, List.dropWhile_append, if_neg (by rwa [List.isEmpty_iff]), begins,
      List.cons_append, Tree.textOfAll_cons, Tree.text_leaf, List.cons_append]
    exact ⟨letter, _, rfl, notPart⟩

/-- What stands behind the declaration is another text than before. -/
theorem dropWhile_ne_added {name specifier : Text} {statements : List Tree} {rewrite : Tree → Tree}
    (parsed : parse? source = some (.node none .program statements)) (isIdentifier : IsIdentifier name)
    (plain : IsPlainText specifier)
    (declaration : rewrite (declarationOf name specifier) = declarationOf name specifier)
    (newLine : rewrite (.leaf none .blank ['\n']) = .leaf none .blank ['\n']) :
    Tree.textOfAll (statements.dropWhile isLeading) ≠ (declarationOf name specifier).text ++
      '\n' :: Tree.textOfAll ((statements.dropWhile isLeading).map rewrite) := by
  by_cases isLed : ∀ tree ∈ (hashBangOf source).1, isLeading tree = true
  · obtain ⟨gap, rest, opening⟩ := exists_opening_of_isLeading parsed isLed
      (Nat.le_add_right (depthBound source.length) 20)
    have short := opening.length_le
    have found := opening.statementsOf_eq
    rw [← opening.textOfAll_eq] at short found
    exact textOfAll_ne_added isIdentifier plain declaration newLine found (by rw [depthBound]; omega)
  · intro same
    simp only [not_forall, Bool.not_eq_true] at isLed
    obtain ⟨tree, member, notLeading⟩ := isLed
    obtain ⟨letter, rest, begins, notPart⟩ := head_dropWhile_isLeading parsed member notLeading
    rw [begins, text_declarationOf_append] at same
    obtain ⟨rfl, -⟩ := List.cons.inj same
    cases notPart

/-! ### Injection -/

section

variable {instrumentation : Instrumentation} {statements : List Tree} {directory : Path}

theorem isLocalName_localNames {binding : Option ImportBinding}
    (entry : IsLocalName instrumentation.entryName)
    (known : ∀ name, binding.bind (·.defaultLocal) = some name → IsLocalName name) :
    IsLocalName (instrumentation.localNames binding).1 := by
  have isName : (instrumentation.localNames binding).1 =
      (binding.bind (·.defaultLocal)).getD instrumentation.entryName := by
    rw [Instrumentation.localNames]
    split <;> rfl
  rw [isName]
  cases found : binding.bind (·.defaultLocal) with
  | none => exact entry
  | some name => exact known name found

/-- What stands behind all that leads differs where an import in it is rewritten. -/
theorem textOfAll_wrapped_ne (isLocalName : IsLocalName localName) (marker : Text)
    (parsed : parse? source = some (.node none .program statements))
    (some : .rewritten ∈ fates guards .plain (.node none .program statements)) :
    Tree.textOfAll (statements.dropWhile isLeading) ≠
      Tree.textOfAll ((statements.dropWhile isLeading).map
        (wrapTree guards localName marker .plain)) := by
  obtain ⟨-, wellFormed, -⟩ := parse?_sound parsed
  rw [fates_behindLeading _ wellFormed.children] at some
  refine (forks_map_wrapTree (fun tree member rewritten => ?_) some).ne
  have isChild := (List.dropWhile_sublist _).mem member
  exact forks_wrapTree isLocalName (wellFormed.children tree isChild) (parse?_builtBy parsed tree isChild)
    rewritten

/-- What stands behind all that leads differs from it with the line of the declaration in front. -/
theorem textOfAll_added_ne (isIdentifier : IsIdentifier instrumentation.entryName)
    (plain : IsPlainText (instrumentation.modulePath.importSpecifier directory))
    (parsed : parse? source = some (.node none .program statements)) :
    Tree.textOfAll (statements.dropWhile isLeading) ≠
      addedLine source statements (importDeclaration instrumentation directory) ++
        Tree.textOfAll ((statements.dropWhile isLeading).map
          (wrapTree guards localName marker .plain)) := by
  have line : importDeclaration instrumentation directory = (declarationOf instrumentation.entryName
      (instrumentation.modulePath.importSpecifier directory)).text ++ ['\n'] :=
    (text_declarationOf _ _).symm
  rw [addedLine_eq, line]
  by_cases empty : statements.dropWhile isLeading = []
  · simp [empty]
  · rw [addedLine_nil, if_neg fun isLast => empty isLast.1, List.nil_append, List.append_assoc,
      List.singleton_append]
    refine dropWhile_ne_added parsed isIdentifier plain (wrapTree_eq_self ?_) rfl
    rw [(withoutImports_declarationOf _ _).fates]
    exact List.not_mem_nil

/-- Injection gives a text where it rewrites an import or adds its declaration, and the text differs from
the source. -/
theorem inject_changes (workingDirectory file : Path) (instrumentation : Instrumentation) {tree : Tree}
    (parsed : parse? source = some tree) :
    let directory := directoryOf workingDirectory file
    let binding := findBinding? tree directory instrumentation.modulePath
    IsLocalName instrumentation.entryName →
      (∀ name, binding.bind (·.defaultLocal) = some name → IsLocalName name) →
      IsPlainText (instrumentation.modulePath.importSpecifier directory) →
      ∃ outcome, inject? workingDirectory source file instrumentation = some outcome ∧
        (outcome.text.isSome = true ↔ 0 < outcome.rewritten ∨ outcome.importAdded = true) ∧
        ∀ text, outcome.text = some text → text ≠ source := by
  intro directory binding entry known plain
  obtain ⟨same, wellFormed, statements, rfl⟩ := parse?_sound parsed
  obtain ⟨left, -, -, -, rewritten, -, unchanged⟩ :=
    injectTree_spec directory instrumentation wellFormed same rfl rfl rfl
  refine ⟨injectTree source (.node none .program statements) directory instrumentation,
    by rw [inject?, injectBy?, parsed, Option.map_some], ?_⟩
  generalize injectTree source (.node none .program statements) directory instrumentation = outcome
    at *
  have isSome : outcome.text.isSome = true ↔ 0 < outcome.rewritten ∨ outcome.importAdded = true := by
    rw [Option.isSome_iff_ne_none, Ne, unchanged, not_and_or, Nat.pos_iff_ne_zero, Bool.not_eq_false]
  refine ⟨isSome, fun text isText isSource => ?_⟩
  have parts : source = Tree.textOfAll (statements.takeWhile isLeading) ++
      Tree.textOfAll (statements.dropWhile isLeading) := by
    rw [← Tree.textOfAll_append, List.takeWhile_append_dropWhile, ← Tree.text_node, same]
  have isLeft : outcome.textOr source = source := by
    rw [Outcome.textOr, isText, Option.getD_some, isSource]
  rw [isLeft, List.append_assoc] at left
  have behind := List.append_cancel_left (parts.symm.trans left)
  cases added : outcome.importAdded with
  | true =>
      rw [added, if_pos rfl] at behind
      exact textOfAll_added_ne entry.isIdentifier plain parsed behind
  | false =>
      rw [added, if_neg Bool.false_ne_true, List.nil_append] at behind
      refine textOfAll_wrapped_ne (isLocalName_localNames entry known) _ parsed ?_ behind
      rw [← List.count_pos_iff, ← rewritten]
      exact (isSome.mp (by rw [isText]; rfl)).resolve_right (by rw [added]; exact Bool.false_ne_true)

end

/-- Injection and removal give a text where they have changed something, and nowhere else. The text is never
the source, and that of removal takes fewer bytes. -/
theorem text_ne_source (workingDirectory file : Path) (instrumentation : Instrumentation) {tree : Tree}
    (parsed : parse? source = some tree) :
    let directory := directoryOf workingDirectory file
    let binding := findBinding? tree directory instrumentation.modulePath
    IsLocalName instrumentation.entryName →
      (∀ name, binding.bind (·.defaultLocal) = some name → IsLocalName name) →
      instrumentation.marker ≠ [] →
      IsPlainText (instrumentation.modulePath.importSpecifier directory) →
      ∃ injected removed, inject? workingDirectory source file instrumentation = some injected ∧
        remove? workingDirectory source file instrumentation = some removed ∧
        (injected.text.isSome = true ↔ 0 < injected.rewritten ∨ injected.importAdded = true) ∧
        (∀ text, injected.text = some text → text ≠ source) ∧
        (removed.text.isSome = true ↔ 0 < removed.rewritten) ∧
        ∀ text, removed.text = some text → text ≠ source ∧ text.utf8Length < source.utf8Length := by
  intro directory binding entry known filled plain
  obtain ⟨injected, isInjected, counts, differs⟩ :=
    inject_changes workingDirectory file instrumentation parsed entry known plain
  obtain ⟨removed, isRemoved, countsRemoved, shorter⟩ :=
    remove_shrinks workingDirectory file filled parsed
  refine ⟨injected, removed, isInjected, isRemoved, counts, differs, countsRemoved, fun text isText => ?_⟩
  have fewer := shorter text isText
  refine ⟨?_, fewer⟩
  rintro rfl
  exact Nat.lt_irrefl _ fewer

/-- A marked call of a name that the script has given the entry point, and an import. -/
def renamedEntry : Text := "import q from './p';q('a',0,0,'m');import ('b')".toList

theorem text_ne_source_renamedEntry :
    ∃ injected removed longer shorter,
      inject? ⟨['/']⟩ renamedEntry ⟨"/f".toList⟩ smallEntry = some injected ∧
      remove? ⟨['/']⟩ renamedEntry ⟨"/f".toList⟩ smallEntry = some removed ∧
      injected.text = some longer ∧ longer ≠ renamedEntry ∧
      removed.text = some shorter ∧ shorter.utf8Length < renamedEntry.utf8Length := by
  have reads : (parse? renamedEntry).any (fun tree =>
      let directory := directoryOf ⟨['/']⟩ ⟨"/f".toList⟩
      Decidable.decide ((findBinding? tree directory smallEntry.modulePath).bind (·.defaultLocal) =
          some ['q'] ∧
        (injectTree renamedEntry tree directory smallEntry).rewritten = 1 ∧
        (removeTree renamedEntry tree directory smallEntry).rewritten = 1)) = true := by
    decide +kernel
  have plain : IsPlainText (smallEntry.modulePath.importSpecifier
      (directoryOf ⟨['/']⟩ ⟨"/f".toList⟩)) := by
    decide +kernel
  have known : IsLocalName ['q'] := by decide
  obtain ⟨tree, parsed, checked⟩ := (Option.any_eq_true _ _).mp reads
  obtain ⟨bound, injects, removes⟩ := of_decide_eq_true checked
  obtain ⟨injected, removed, isInjected, isRemoved, counts, differs, countsRemoved, shorter⟩ :=
    text_ne_source ⟨['/']⟩ ⟨"/f".toList⟩ smallEntry parsed (by decide)
      (fun name found => Option.some.inj (bound.symm.trans found) ▸ known) (by decide) plain
  refine ⟨injected, removed, ?_⟩
  have isOutcome := isInjected
  have isRest := isRemoved
  rw [inject?, injectBy?, parsed, Option.map_some, Option.some.injEq] at isOutcome
  rw [remove?, removeBy?, parsed, Option.map_some, Option.some.injEq] at isRest
  rw [isOutcome] at injects
  rw [isRest] at removes
  obtain ⟨longer, isLonger⟩ := Option.isSome_iff_exists.mp
    (counts.mpr (.inl (Nat.lt_of_lt_of_eq Nat.zero_lt_one injects.symm)))
  obtain ⟨left, isLeft⟩ := Option.isSome_iff_exists.mp
    (countsRemoved.mpr (Nat.lt_of_lt_of_eq Nat.zero_lt_one removes.symm))
  exact ⟨longer, left, isInjected, isRemoved, isLonger, differs longer isLonger, isLeft,
    (shorter left isLeft).2⟩

end ImportMeter.Instrument
