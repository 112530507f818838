/-
This file proves that the declaration which injection writes is read as that declaration, and that the
script around it is read as it was before.
-/
import Mathlib.Data.List.TakeWhile
import ImportMeter.Proofs.Instrument.Injection
import ImportMeter.Proofs.Script.Identifier
import ImportMeter.Proofs.Script.Statement

namespace ImportMeter.Script

open ImportMeter.Script.Tree

variable {fuel : Nat} {text letters rest : Text} {markup semicolons afterExpression : Bool}
  {gap : List Tree} {kind : Kind} {lexeme : Lexeme}

/-- One space in front of a token. -/
theorem gapOf_space (solid : IsSolid text) (markup : Bool) (fuel : Nat) :
    gapOf markup (fuel + 1) (' ' :: text) = ([.leaf none .blank [' ']], text) := by
  have isBlank : ∀ letter ∈ [' '], isBlank letter = true := List.forall_mem_singleton.mpr rfl
  have blanks : blanksOf (' ' :: text) = ([.leaf none .blank [' ']], text) :=
    blanksOf_append isBlank solid.stops
  have noComment : commentLength markup text = none := by
    cases markup with
    | true => exact solid.noComment
    | false => exact commentLength_false solid.noComment
  rw [gapOf, commentOf, blanks]
  simp only [noComment, Option.map_none]

namespace Rule

theorem read_token_taken (behind : gapOf markup fuel text = (gap, letters ++ rest))
    (taken : lexeme.length? (letters ++ rest) = some letters.length) :
    read grammar (fuel + 1) (.token kind lexeme) ⟨text, markup, semicolons, afterExpression⟩ =
      .read (gap ++ [.leaf none kind letters]) ⟨rest, reopens kind letters, semicolons, false⟩ := by
  simp only [read, behind, readToken, taken, List.take_left, List.drop_left]

theorem read_token_letter {letter : Char} (behind : gapOf markup fuel text = (gap, letter :: rest))
    (taken : lexeme.length? (letter :: rest) = some 1) :
    read grammar (fuel + 1) (.token kind lexeme) ⟨text, markup, semicolons, afterExpression⟩ =
      .read (gap ++ [.leaf none kind [letter]]) ⟨rest, reopens kind [letter], semicolons, false⟩ := by
  simp only [read, behind, readToken, taken, List.take_succ_cons, List.take_zero, List.drop_succ_cons,
    List.drop_zero]

theorem read_token_missed (behind : gapOf markup fuel text = (gap, rest))
    (other : lexeme.length? rest = none) :
    read grammar (fuel + 1) (.token kind lexeme) ⟨text, markup, semicolons, afterExpression⟩ =
      .missed := by
  simp only [read, behind, readToken, other]

end Rule

/-- True for a text that is a name. -/
def IsName (name : Text) : Prop :=
  (∃ first rest, name = first :: rest ∧ isNameStart first = true) ∧
    ∀ letter ∈ name, isNamePart letter = true

theorem IsName.isIdentifier {name : Text} (isName : IsName name) : IsIdentifier name := by
  obtain ⟨⟨first, others, rfl, starts⟩, parts⟩ := isName
  have tail := nameTailLength_parts parts []
  rw [List.append_nil] at tail
  rw [IsIdentifier, nameLength, starts, Bool.true_or, if_pos rfl, tail]
  rfl

theorem read_importClause {name : Text} (isIdentifier : IsIdentifier name) (solid : IsSolid rest)
    (noComma : (Lexeme.mark [',']).length? rest = none) :
    Rule.read grammar (fuel + 7) Phrase.importClause
        ⟨' ' :: (name ++ ' ' :: rest), markup, semicolons, afterExpression⟩ =
      .read [.leaf none .blank [' '], .node none .importClause [.leaf none .identifier name]]
        ⟨' ' :: rest, false, semicolons, false⟩ := by
  have gap : ∀ (markup : Bool) (fuel : Nat), gapOf markup (fuel + 1) (' ' :: (name ++ ' ' :: rest)) =
      ([.leaf none .blank [' ']], name ++ ' ' :: rest) :=
    gapOf_space (isIdentifier.isSolid _)
  have word : (Lexeme.name []).length? (name ++ ' ' :: rest) = some name.length := by
    rw [Lexeme.length?, isIdentifier.nameLength]
    rfl
  simp only [Phrase.importClause, Phrase.namespaceImport, Phrase.namedImports, Phrase.mark,
    Phrase.anyName, Phrase.optional, Phrase.nothing, Rule.read, Rule.readAny, Rule.readAll, gap,
    Rule.readToken, isIdentifier.length?_mark _ (by decide : isNamePart '*' = false) (by decide),
    isIdentifier.length?_mark _ (by decide : isNamePart '{' = false) (by decide), word,
    List.take_left, List.drop_left, gapOf_space solid, noComma, Rule.reopens, List.nil_append,
    List.append_nil, List.cons_append]
  rfl

/-- True for a text that stands in single quotes as it is. -/
def IsPlainText (letters : Text) : Prop :=
  ∀ letter ∈ letters, letter ≠ '\x27' ∧ letter ≠ '\\' ∧ letter ≠ '\r' ∧ letter ≠ '\n'

instance (letters : Text) : Decidable (IsPlainText letters) :=
  List.decidableBAll _ letters

/-- The end of a quoted text is the end of the literal. -/
theorem isSolid_quote (rest : Text) : IsSolid ('\x27' :: rest) :=
  isSolid_cons (by decide) (by decide)

theorem length?_fragment {letters : Text} (plain : IsPlainText letters) (rest : Text) :
    (Lexeme.fragment '\x27').length? (letters ++ '\x27' :: rest) =
      if letters = [] then none else some letters.length := by
  have run : runLength (fun letter => letter ≠ '\x27' && letter ≠ '\\' && letter ≠ '\r' &&
      letter ≠ '\n') (letters ++ '\x27' :: rest) = letters.length := by
    refine runLength_append (fun letter member => ?_) fun letter isHead => ?_
    · simp [plain letter member]
    · cases isHead
      decide
  rw [Lexeme.length?, fragmentLength, run]
  cases letters <;> rfl

/-- The letters of a literal are one fragment, which its closing quote ends. -/
theorem readMany_stringPart {letters : Text} (plain : IsPlainText letters) (rest : Text) :
    ∃ marked, Rule.readMany (Rule.read grammar (fuel + 3) (Phrase.stringPart '\x27')) (fuel + 3)
        ⟨letters ++ '\x27' :: rest, markup, semicolons, false⟩ =
      .read (if letters = [] then [] else [.leaf none .stringFragment letters])
        ⟨'\x27' :: rest, marked, semicolons, false⟩ := by
  have fragment := length?_fragment plain rest
  have closed : ∀ marked, Rule.read grammar (fuel + 3) (Phrase.stringPart '\x27')
      ⟨'\x27' :: rest, marked, semicolons, false⟩ = .missed := by
    intro marked
    have noFragment : (Lexeme.fragment '\x27').length? ('\x27' :: rest) = none := rfl
    have noEscape : Lexeme.escape.length? ('\x27' :: rest) = none := rfl
    simp only [Phrase.stringPart, Rule.read, Rule.readAny, Rule.readToken, noFragment, noEscape]
  cases letters with
  | nil =>
      refine ⟨markup, ?_⟩
      rw [List.nil_append, Rule.readMany, closed]
      rfl
  | cons letter letters =>
      have taken : Rule.read grammar (fuel + 3) (Phrase.stringPart '\x27')
          ⟨letter :: letters ++ '\x27' :: rest, markup, semicolons, false⟩ =
          .read [.leaf none .stringFragment (letter :: letters)]
            ⟨'\x27' :: rest, false, semicolons, false⟩ := by
        rw [if_neg (List.cons_ne_nil _ _)] at fragment
        simp only [Phrase.stringPart, Rule.read, Rule.readAny, Rule.readToken, fragment,
          List.take_left, List.drop_left, List.nil_append]
        rfl
      have nothing : Rule.readMany (Rule.read grammar (fuel + 3) (Phrase.stringPart '\x27')) (fuel + 2)
          ⟨'\x27' :: rest, false, semicolons, false⟩ =
          .read [] ⟨'\x27' :: rest, false, semicolons, false⟩ := by
        rw [Rule.readMany, closed]
      refine ⟨false, ?_⟩
      rw [Rule.readMany, taken]
      simp only [nothing, List.append_nil]
      rfl

theorem read_string {letters : Text} (plain : IsPlainText letters) (rest : Text) :
    Rule.read grammar (fuel + 9) (.ref .string)
        ⟨' ' :: '\x27' :: (letters ++ '\x27' :: rest), markup, semicolons, afterExpression⟩ =
      .read [.leaf none .blank [' '], Instrument.quoted letters] ⟨rest, true, semicolons, false⟩ := by
  have gap := gapOf_space (isSolid_quote (letters ++ '\x27' :: rest)) markup (fuel + 3)
  have quote : ∀ text : Text, (Lexeme.exact ['\x27']).length? ('\x27' :: text) = some 1 := by
    simp [Lexeme.length?, Text.startsWith, Text.dropFront?]
  have notDouble : (Lexeme.exact ['\x22']).length? ('\x27' :: (letters ++ '\x27' :: rest)) = none :=
    rfl
  have double : Rule.read grammar (fuel + 7) (Phrase.quoted Phrase.stringPart '\x22')
      ⟨' ' :: '\x27' :: (letters ++ '\x27' :: rest), markup, semicolons, afterExpression⟩ =
      .missed := by
    rw [Phrase.quoted, Rule.read, Rule.read, Rule.readAll, Phrase.exact,
      Rule.read_token_missed gap notDouble]
  have opening : Rule.read grammar (fuel + 5) (.token .mark (.exact ['\x27']))
      ⟨' ' :: '\x27' :: (letters ++ '\x27' :: rest), markup, semicolons, afterExpression⟩ =
      .read [.leaf none .blank [' '], .leaf none .mark ['\x27']]
        ⟨letters ++ '\x27' :: rest, true, semicolons, false⟩ :=
    Rule.read_token_letter gap (quote _)
  obtain ⟨marked, many⟩ : ∃ marked, Rule.read grammar (fuel + 5) (.many (Phrase.stringPart '\x27'))
      ⟨letters ++ '\x27' :: rest, true, semicolons, false⟩ =
      .read (if letters = [] then [] else [.leaf none .stringFragment letters])
        ⟨'\x27' :: rest, marked, semicolons, false⟩ :=
    readMany_stringPart plain rest
  have closing : Rule.read grammar (fuel + 5) (.token .mark (.exact ['\x27']))
      ⟨'\x27' :: rest, marked, semicolons, false⟩ =
      .read [.leaf none .mark ['\x27']] ⟨rest, true, semicolons, false⟩ :=
    Rule.read_token_letter ((isSolid_quote rest).gapOf marked _) (quote rest)
  have single : Rule.read grammar (fuel + 7) (Phrase.quoted Phrase.stringPart '\x27')
      ⟨' ' :: '\x27' :: (letters ++ '\x27' :: rest), markup, semicolons, afterExpression⟩ =
      .read [.leaf none .blank [' '], Instrument.quoted letters] ⟨rest, true, semicolons, false⟩ := by
    rw [Phrase.quoted, Rule.read, Rule.read, Rule.readAll, Phrase.exact, opening]
    simp only [Rule.readAll, many, closing]
    cases letters <;> rfl
  rw [Rule.read]
  change Rule.read grammar (fuel + 8) (.any [_, _]) _ = _
  rw [Rule.read, Rule.readAny, double]
  simp only [Rule.readAny, single]

theorem isIdentifier_importWord : IsIdentifier Word.importWord := by
  decide

theorem isIdentifier_fromWord : IsIdentifier Word.fromWord := by
  decide

/-- A word behind a space and in front of another. -/
theorem read_word {word : Text} (isIdentifier : IsIdentifier word) (rest : Text) :
    Rule.read grammar (fuel + 2) (Phrase.word word)
        ⟨' ' :: (word ++ ' ' :: rest), markup, semicolons, afterExpression⟩ =
      .read [.leaf none .blank [' '], .leaf none .mark word]
        ⟨' ' :: rest, Rule.reopens .mark word, semicolons, false⟩ :=
  Rule.read_token_taken (gapOf_space (isIdentifier.isSolid _) _ _) (isIdentifier.length?_word rest)

theorem read_fromClause {letters : Text} (plain : IsPlainText letters) (rest : Text) :
    Rule.read grammar (fuel + 11) Phrase.fromClause
        ⟨' ' :: (Word.fromWord ++ ' ' :: '\x27' :: (letters ++ '\x27' :: rest)), markup, semicolons,
          afterExpression⟩ =
      .read [.leaf none .blank [' '], .leaf none .mark Word.fromWord, .leaf none .blank [' '],
        (Instrument.quoted letters).withRole (some .source)] ⟨rest, true, semicolons, false⟩ := by
  have source : Rule.read grammar (fuel + 10) (.part .source (.ref .string))
      ⟨' ' :: '\x27' :: (letters ++ '\x27' :: rest), true, semicolons, false⟩ =
      .read [.leaf none .blank [' '], (Instrument.quoted letters).withRole (some .source)]
        ⟨rest, true, semicolons, false⟩ := by
    rw [Rule.read, read_string plain]
    rfl
  have word : Rule.read grammar (fuel + 10) (Phrase.word Word.fromWord)
      ⟨' ' :: (Word.fromWord ++ ' ' :: '\x27' :: (letters ++ '\x27' :: rest)), markup, semicolons,
        afterExpression⟩ = _ :=
    read_word isIdentifier_fromWord _
  rw [Phrase.fromClause, Rule.read, Rule.readAll, word]
  have reopened : Rule.reopens .mark Word.fromWord = true := rfl
  simp only [Rule.readAll, reopened, source]
  rfl

theorem isSolid_semicolon (rest : Text) : IsSolid (';' :: rest) :=
  isSolid_cons (by decide) (by decide)

/-- No attributes stand between the source and the semicolon. -/
theorem read_importAttribute (rest : Text) :
    Rule.read grammar (fuel + 6) (Phrase.optional Phrase.importAttribute)
        ⟨';' :: rest, markup, semicolons, afterExpression⟩ =
      .read [] ⟨';' :: rest, markup, semicolons, afterExpression⟩ := by
  have noWord : (Lexeme.word Word.withWord).length? (';' :: rest) = none := rfl
  have missed : Rule.read grammar (fuel + 4)
      (.node .importAttribute (.all [Phrase.word Word.withWord, .ref .object]))
      ⟨';' :: rest, markup, semicolons, afterExpression⟩ = .missed := by
    rw [Rule.read, Rule.read, Rule.readAll, Phrase.word,
      Rule.read_token_missed ((isSolid_semicolon rest).gapOf markup _) noWord]
  have attributes : Rule.read grammar (fuel + 5) Phrase.importAttribute
      ⟨';' :: rest, markup, semicolons, afterExpression⟩ = .missed := by
    rw [Phrase.importAttribute, Rule.read, Rule.readAll, Rule.read]
    split
    next next found =>
      split at found <;> cases found
      simp only [Rule.readAll, missed]
    next => rfl
    next found => split at found <;> cases found
  rw [Phrase.optional, Rule.read, Rule.readAny, attributes]
  rfl

/-- The semicolon at the end of the declaration is written, not implied. -/
theorem read_semicolon (rest : Text) :
    Rule.read grammar (fuel + 3) .semicolon ⟨';' :: rest, markup, semicolons, false⟩ =
      .read [.leaf none .mark [';']] ⟨rest, true, semicolons, false⟩ := by
  have solid := isSolid_semicolon rest
  have notImplied : impliesSemicolon false (fuel + 1) (';' :: rest) = false := rfl
  have noComment : commentOf false (';' :: rest) = none := by
    rw [commentOf, blanksOf_eq_nil solid.stops]
    simp only [commentLength_false solid.noComment, Option.map_none]
  have taken : (Lexeme.exact [';']).length? (';' :: rest) = some 1 := by
    simp [Lexeme.length?, Text.startsWith, Text.dropFront?]
  rw [Rule.read, Rule.readSemicolon]
  simp only [notImplied, noComment, blanksOf_eq_nil solid.stops, Rule.readToken, taken]
  rfl

/-- What follows the word of the declaration. -/
def afterImport (name specifier rest : Text) : Text :=
  ' ' :: (name ++ ' ' :: (Word.fromWord ++ ' ' :: '\x27' :: (specifier ++ '\x27' :: ';' :: rest)))

theorem read_importDeclaration {name specifier : Text} (isIdentifier : IsIdentifier name)
    (plain : IsPlainText specifier) (rest : Text) :
    Rule.read grammar (fuel + 16) (.ref .importDeclaration)
        ⟨Word.importWord ++ afterImport name specifier rest, markup, semicolons, afterExpression⟩ =
      .read [Instrument.declarationOf name specifier] ⟨rest, true, semicolons, false⟩ := by
  have solid := isIdentifier_importWord.isSolid (afterImport name specifier rest)
  have word : Rule.read grammar (fuel + 13) (Phrase.word Word.importWord)
      ⟨Word.importWord ++ afterImport name specifier rest, markup, semicolons, afterExpression⟩ =
      .read [.leaf none .mark Word.importWord]
        ⟨afterImport name specifier rest, true, semicolons, false⟩ :=
    Rule.read_token_taken (solid.gapOf markup _) (isIdentifier_importWord.length?_word _)
  have clause : Rule.read grammar (fuel + 11) Phrase.importClause
      ⟨' ' :: (name ++ ' ' :: (Word.fromWord ++ ' ' :: '\x27' :: (specifier ++ '\x27' :: ';' :: rest))),
        true, semicolons, false⟩ = _ :=
    read_importClause isIdentifier (isIdentifier_fromWord.isSolid _)
      (isIdentifier_fromWord.length?_mark _ (by decide) (by decide))
  have source : Rule.read grammar (fuel + 11) Phrase.fromClause
      ⟨' ' :: (Word.fromWord ++ ' ' :: '\x27' :: (specifier ++ '\x27' :: ';' :: rest)), false,
        semicolons, false⟩ = _ :=
    read_fromClause plain (';' :: rest)
  have attributes : Rule.read grammar (fuel + 13) (Phrase.optional Phrase.importAttribute)
      ⟨';' :: rest, true, semicolons, false⟩ = _ :=
    read_importAttribute rest
  have semicolon : Rule.read grammar (fuel + 13) .semicolon ⟨';' :: rest, true, semicolons, false⟩ = _ :=
    read_semicolon rest
  have both : Rule.read grammar (fuel + 13)
      (.any [.all [Phrase.importClause, Phrase.fromClause], .part .source (.ref .string)])
      ⟨afterImport name specifier rest, true, semicolons, false⟩ =
      .read [.leaf none .blank [' '], .node none .importClause [.leaf none .identifier name],
        .leaf none .blank [' '], .leaf none .mark Word.fromWord, .leaf none .blank [' '],
        (Instrument.quoted specifier).withRole (some .source)]
        ⟨';' :: rest, true, semicolons, false⟩ := by
    rw [Rule.read, Rule.readAny, Rule.read, Rule.readAll, afterImport, clause]
    simp only [Rule.readAll, source]
    rfl
  rw [Rule.read]
  change Rule.read grammar (fuel + 15) (.node .importStatement (.all [_, _, _, _])) _ = _
  rw [Rule.read, Rule.read, Rule.readAll, word]
  simp only [Rule.readAll, both, attributes, semicolon]
  rfl

/-- The declaration is no block and no empty statement, so it is read as what it is. -/
theorem read_statementChoice_declaration {name specifier : Text} (isIdentifier : IsIdentifier name)
    (plain : IsPlainText specifier) (rest : Text) :
    Rule.read grammar (fuel + 17) statementChoice
        ⟨Word.importWord ++ afterImport name specifier rest, markup, semicolons, afterExpression⟩ =
      .read [Instrument.declarationOf name specifier] ⟨rest, true, semicolons, false⟩ := by
  have solid := isIdentifier_importWord.isSolid (afterImport name specifier rest)
  have noMark : ∀ {sign : Char} (fuel : Nat), isNamePart sign = false → sign ≠ '\\' →
      Rule.read grammar (fuel + 1) (Phrase.mark [sign])
        ⟨Word.importWord ++ afterImport name specifier rest, markup, semicolons, afterExpression⟩ =
        .missed := fun fuel notPart notEscape =>
    Rule.read_token_missed (solid.gapOf markup fuel)
      (isIdentifier_importWord.length?_mark _ notPart notEscape)
  have braces : Rule.read grammar (fuel + 14) (.ref .block)
      ⟨Word.importWord ++ afterImport name specifier rest, markup, semicolons, afterExpression⟩ =
      .missed := by
    rw [Rule.read]
    change Rule.read grammar (fuel + 13) Phrase.statementBlock _ = _
    rw [Phrase.statementBlock, Rule.read, Rule.read, Rule.readAll, noMark _ (by decide) (by decide)]
  have block : Rule.read grammar (fuel + 16) (.all [Phrase.block, .unless Phrase.continuation])
      ⟨Word.importWord ++ afterImport name specifier rest, markup, semicolons, afterExpression⟩ =
      .missed := by
    rw [Rule.read, Rule.readAll, Phrase.block, Rule.read, Rule.readAll, braces]
  have empty : Rule.read grammar (fuel + 16) (.node .emptyStatement (Phrase.mark [';']))
      ⟨Word.importWord ++ afterImport name specifier rest, markup, semicolons, afterExpression⟩ =
      .missed := by
    rw [Rule.read, noMark _ (by decide) (by decide)]
  change Rule.read grammar (fuel + 17) (.any (_ :: _ :: .ref .importDeclaration :: _)) _ = _
  rw [Rule.read, Rule.readAny, block]
  simp only [Rule.readAny, empty, read_importDeclaration isIdentifier plain rest]

/-- A declaration in front of some text is the first of its statements. -/
theorem statementsOf_declaration {name specifier : Text} (isIdentifier : IsIdentifier name)
    (plain : IsPlainText specifier)
    (enough : (Word.importWord ++ afterImport name specifier rest).length + 20 < fuel) :
    statementsOf fuel (Word.importWord ++ afterImport name specifier rest) =
      (statementsOf fuel rest).map (Instrument.declarationOf name specifier :: ·) := by
  obtain ⟨less, rfl⟩ : ∃ less, fuel = less + 20 := ⟨fuel - 20, by omega⟩
  have shorter : rest.length < less := by
    simp only [afterImport, List.length_append, List.length_cons] at enough
    omega
  have gap : gapOf true (less + 16) (Word.importWord ++ afterImport name specifier rest) =
      ([], Word.importWord ++ afterImport name specifier rest) :=
    (isIdentifier_importWord.isSolid _).gapOf true _
  have stable : Rule.readMany (Rule.read grammar (less + 20) (.ref .statement)) (less + 19)
      ⟨rest, true, true, false⟩ = _ :=
    readMany_statement_stable (by simp only; omega)
  rw [statementsOf, statementsOf, Rule.readMany, read_statement (less + 16)]
  simp only [gap, read_statementChoice_declaration isIdentifier plain rest, Outcome.behind, List.nil_append,
    stable]
  cases Rule.readMany (Rule.read grammar (less + 20) (.ref .statement)) (less + 20)
    ⟨rest, true, true, false⟩ with
  | missed => rfl
  | refused => rfl
  | read more last =>
      simp only [Outcome.toEnd]
      split <;> rfl

/-! ### How a script begins -/

open Instrument

/-- True for the statements of a script whose line for the system, if it has one, leads it. -/
def SystemLineLeads (statements : List Tree) : Prop :=
  ∀ tree ∈ statements.dropWhile isLeading, tree.kind ≠ .hashBangLine

instance (statements : List Tree) : Decidable (SystemLineLeads statements) :=
  inferInstanceAs (Decidable (∀ tree ∈ statements.dropWhile isLeading, _))

theorem Leads.isLeading (leads : Leads gap rest text) :
    ∀ tree ∈ gap, Instrument.isLeading tree = true := by
  intro tree member
  obtain ⟨kind, letters, rfl, among⟩ := leads.isPlain tree member
  simp only [List.mem_cons, List.not_mem_nil, or_false] at among
  rcases among with rfl | rfl <;> rfl

theorem Leads.withoutTrivia (leads : Leads gap rest text) : Instrument.withoutTrivia gap = [] := by
  rw [Instrument.withoutTrivia, List.filter_eq_nil_iff]
  intro tree member
  obtain ⟨kind, letters, rfl, among⟩ := leads.isPlain tree member
  simp only [List.mem_cons, List.not_mem_nil, or_false] at among
  rcases among with rfl | rfl <;> simp [Tree.isTrivia, Tree.kind, Kind.isTrivia]

theorem withoutTrivia_append (first second : List Tree) :
    withoutTrivia (first ++ second) = withoutTrivia first ++ withoutTrivia second :=
  List.filter_append first second

/-- Nothing leads behind all that does. -/
theorem isLeading_statement {tree : Tree} (wellFormed : tree.WellFormed)
    (first : tree.kind = .htmlComment ∨ ∃ kind children, tree = .node none kind children) :
    isLeading tree = false := by
  rcases first with isMarkup | ⟨kind, children, rfl⟩
  · simp [Instrument.isLeading, isMarkup, Kind.isNamed]
  · rw [Bool.eq_false_iff]
    intro leading
    have isLeaf := wellFormed.eq_leaf (isToken_of_isLeading leading)
    cases isLeaf

/-- The line for the system leads a script together with the gap in front of it, or it does not lead. -/
theorem isLeading_hashBangOf {statements : List Tree}
    (leads : SystemLineLeads ((hashBangOf text).1 ++ statements)) :
    ∀ tree ∈ (hashBangOf text).1, isLeading tree = true := by
  rcases hashBangOf_cases text with none | ⟨gap, body, rest, hashBang⟩
  · rw [none]
    exact nofun
  · rw [hashBang.hashBangOf_eq] at leads ⊢
    rw [List.forall_mem_append, List.forall_mem_singleton]
    refine ⟨fun tree member => ?_, rfl⟩
    by_contra notLeading
    have stays : gap.dropWhile isLeading ≠ [] := by
      rw [Ne, List.dropWhile_eq_nil_iff]
      exact fun every => notLeading (every tree member)
    rw [SystemLineLeads, List.append_assoc, List.dropWhile_append,
      if_neg (by rwa [List.isEmpty_iff])] at leads
    exact leads (.leaf none .hashBangLine ('#' :: '!' :: body)) (by simp) rfl

/-- A script begins with the line for the system, white space and comments, which lead it, and goes on with
the rest of its statements. -/
structure Opening (fuel : Nat) (source : Text) (statements gap : List Tree) (rest : Text) : Prop where
  leads : Leads gap rest (hashBangOf source).2
  takeWhile_eq : statements.takeWhile isLeading = (hashBangOf source).1 ++ gap
  statementsOf_eq : statementsOf fuel rest = some (statements.dropWhile isLeading)
  textOfAll_eq : textOfAll (statements.dropWhile isLeading) = rest

/-- A script is the line for the system and the statements behind it. -/
theorem exists_behindHashBang {source : Text} {statements : List Tree}
    (parsed : parse? source = some (.node none .program statements))
    (enough : depthBound source.length ≤ fuel) :
    ∃ behind, statements = (hashBangOf source).1 ++ behind ∧
      statementsOf fuel (hashBangOf source).2 = some behind := by
  rw [parse?_eq enough, Option.map_eq_some_iff] at parsed
  obtain ⟨behind, found, isScript⟩ := parsed
  cases isScript
  exact ⟨behind, rfl, found⟩

theorem exists_opening_of_isLeading {source : Text} {statements : List Tree}
    (parsed : parse? source = some (.node none .program statements))
    (isLed : ∀ tree ∈ (hashBangOf source).1, isLeading tree = true)
    (enough : depthBound source.length ≤ fuel) :
    ∃ gap rest, Opening fuel source statements gap rest := by
  obtain ⟨same, wellFormed, _⟩ := parse?_sound parsed
  have whole := textOfAll_hashBangOf source
  obtain ⟨behind, rfl, found⟩ := exists_behindHashBang parsed enough
  obtain ⟨gap, rest, gapLeads, plain⟩ := Leads.exists_leads (hashBangOf source).2
  have long : (hashBangOf source).2.length + 4 < fuel := by
    rw [depthBound] at enough
    have length := congrArg List.length whole
    rw [List.length_append] at length
    omega
  have shorter := congrArg List.length gapLeads.textOfAll_append
  rw [List.length_append] at shorter
  rw [statementsOf_leads gapLeads long, Option.map_eq_some_iff] at found
  obtain ⟨trees, found, rfl⟩ := found
  have leading : ∀ tree ∈ (hashBangOf source).1 ++ gap, isLeading tree = true :=
    List.forall_mem_append.mpr ⟨isLed, gapLeads.isLeading⟩
  have stops : trees.takeWhile isLeading = [] ∧ trees.dropWhile isLeading = trees := by
    cases trees with
    | nil => exact ⟨rfl, rfl⟩
    | cons tree trees =>
        have first := head?_statementsOf gapLeads.stops plain (by omega) found rfl
        have notLeading := isLeading_statement (wellFormed.children tree (by simp)) first
        exact ⟨List.takeWhile_cons_of_neg (by simp [notLeading]),
          List.dropWhile_cons_of_neg (by simp [notLeading])⟩
  have behind : textOfAll trees = rest := by
    rw [Tree.text_node, Tree.textOfAll_append, Tree.textOfAll_append] at same
    have parts := same.trans whole.symm
    rw [← gapLeads.textOfAll_append] at parts
    simpa using parts
  rw [← List.append_assoc]
  have front : ((hashBangOf source).1 ++ gap ++ trees).takeWhile isLeading =
      (hashBangOf source).1 ++ gap := by
    rw [List.takeWhile_append_of_pos leading, stops.1, List.append_nil]
  have left : ((hashBangOf source).1 ++ gap ++ trees).dropWhile isLeading = trees := by
    rw [List.dropWhile_append_of_pos leading, stops.2]
  exact ⟨gap, rest, gapLeads, front, by rw [left, found], by rw [left, behind]⟩

theorem exists_opening {source : Text} {statements : List Tree}
    (parsed : parse? source = some (.node none .program statements))
    (systemLine : SystemLineLeads statements) (enough : depthBound source.length ≤ fuel) :
    ∃ gap rest, Opening fuel source statements gap rest := by
  obtain ⟨behind, rfl, _⟩ := exists_behindHashBang parsed enough
  exact exists_opening_of_isLeading parsed (isLeading_hashBangOf systemLine) enough

namespace Opening

variable {source : Text} {statements : List Tree}

theorem dropWhile_eq_nil_iff (opening : Opening (fuel + 1) source statements gap rest) :
    statements.dropWhile isLeading = [] ↔ rest = [] := by
  refine ⟨fun empty => by rw [← opening.textOfAll_eq, empty, textOfAll_nil], fun empty => ?_⟩
  have found := opening.statementsOf_eq
  rw [empty] at found
  exact statementsOf_nil found

theorem isLeading (opening : Opening fuel source statements gap rest) :
    ∀ tree ∈ (hashBangOf source).1, Instrument.isLeading tree = true := by
  have leading : ∀ tree ∈ statements.takeWhile Instrument.isLeading,
      Instrument.isLeading tree = true := fun _ => isLeading_of_mem
  rw [opening.takeWhile_eq] at leading
  exact (List.forall_mem_append.mp leading).1

theorem length_le (opening : Opening fuel source statements gap rest) :
    (textOfAll (hashBangOf source).1).length + (textOfAll gap).length + rest.length ≤
      source.length := by
  have whole := congrArg List.length (textOfAll_hashBangOf source)
  have behind := congrArg List.length opening.leads.textOfAll_append
  rw [List.length_append] at whole behind
  omega

end Opening

/-- If no text is left behind all that leads, no statement is. -/
theorem dropWhile_eq_nil {source : Text} {statements : List Tree}
    (parsed : parse? source = some (.node none .program statements))
    (systemLine : SystemLineLeads statements)
    (empty : textOfAll (statements.dropWhile isLeading) = []) :
    statements.dropWhile isLeading = [] := by
  obtain ⟨gap, rest, opening⟩ := exists_opening parsed systemLine (Nat.le_succ _)
  exact opening.dropWhile_eq_nil_iff.mpr (opening.textOfAll_eq.symm.trans empty)

/-! ### The added declaration -/

/-- A line for the system is read as before if what follows it is led as before and begins a new line. -/
theorem hashBangOf_replace {other behind : Text}
    (isLed : ∀ tree ∈ (hashBangOf text).1, isLeading tree = true) (leads : Leads gap behind other)
    (solid : IsSolid behind) (noHashBang : Lexeme.hashBang.length? behind = none)
    (breaks : (hashBangOf text).1 ≠ [] → ∀ letter, other.head? = some letter → letter = '\n') :
    hashBangOf (textOfAll (hashBangOf text).1 ++ other) = ((hashBangOf text).1, other) := by
  rcases hashBangOf_cases text with none | ⟨gap, body, rest, hashBang⟩
  · rw [none]
    simp only [textOfAll_nil, List.nil_append, hashBangOf, leads.gapOf_eq (Nat.lt_succ_self _),
      solid.gapOf, noHashBang]
  · rw [hashBang.hashBangOf_eq] at isLed breaks ⊢
    have plain : ∀ tree ∈ gap, tree.kind ≠ .htmlComment := by
      intro tree member isMarkup
      have leading := isLed tree (List.mem_append_left _ member)
      rw [Instrument.isLeading, isMarkup] at leading
      cases leading
    have again := hashBang.replace plain (breaks (by simp))
    have joined : textOfAll (gap ++ [.leaf none .hashBangLine ('#' :: '!' :: body)]) ++ other =
        textOfAll gap ++ '#' :: '!' :: (body ++ other) := by
      simp
    rw [joined, again.hashBangOf_eq]

theorem addedLine_eq (source : Text) (statements : List Tree) (declaration : Text) :
    addedLine source statements declaration = addedLine source statements [] ++ declaration := by
  rw [addedLine, addedLine]
  split <;> rfl

section

variable {source : Text} {statements : List Tree}

theorem addedLine_nil (source : Text) (statements : List Tree) :
    addedLine source statements [] =
      if statements.dropWhile isLeading = [] ∧ source ≠ [] ∧ source.getLast? ≠ some '\n' then ['\n']
      else [] :=
  rfl

theorem length_addedLine_nil (source : Text) (statements : List Tree) :
    (addedLine source statements []).length ≤ 1 := by
  rw [addedLine_nil]
  split <;> simp

/-- What leads a script leads what is added to it, which begins a line of its own if nothing else follows. -/
theorem exists_leads_added {new : Text} (solid : IsSolid new)
    (opening : Opening (fuel + 1) source statements gap rest) :
    ∃ front, Leads front new (textOfAll front ++ new) ∧
      textOfAll front = textOfAll gap ++ addedLine source statements [] := by
  have leads := opening.leads
  have empty := opening.dropWhile_eq_nil_iff
  obtain ⟨before, split⟩ : (hashBangOf source).2 <:+ source := ⟨_, textOfAll_hashBangOf source⟩
  rw [addedLine_nil]
  split
  next open' =>
    have nothing := empty.mp open'.1
    obtain ⟨front, frontLeads, same⟩ := leads.replace_newline nothing solid.stops
    have whole := leads.textOfAll_append
    rw [nothing, List.append_nil] at whole
    refine ⟨front, ?_, by rw [same, whole]⟩
    rw [same, List.append_assoc]
    exact frontLeads
  next closed =>
    have ended : rest ≠ [] ∨ (hashBangOf source).2 = [] ∨
        (hashBangOf source).2.getLast? = some '\n' := by
      by_contra notEnded
      simp only [not_or, ne_eq, not_not] at notEnded
      obtain ⟨nothing, filled, last⟩ := notEnded
      refine closed ⟨empty.mpr nothing, ?_, ?_⟩
      · rw [← split]
        simp [filled]
      · rwa [← split, List.getLast?_append_of_ne_nil _ filled]
    exact ⟨gap, leads.replace ended solid.stops, (List.append_nil _).symm⟩

/-- The line for the system holds no line end, so it has none at its end. -/
theorem HashBang.getLast?_ne {body : Text} (hashBang : HashBang gap body rest text)
    (front : List Tree) : (textOfAll front ++ '#' :: '!' :: body).getLast? ≠ some '\n' := by
  rw [List.getLast?_append, List.getLast?_cons, Option.some_or, ← List.getLast?_cons]
  intro isLast
  have member := List.mem_of_getLast? isLast
  simp only [List.mem_cons, Char.reduceEq, false_or] at member
  exact hashBang.inside member

/-- What is added to a line for the system begins a line of its own. -/
theorem head?_added {front new : Text} (opening : Opening (fuel + 1) source statements gap rest)
    (same : front = textOfAll gap ++ addedLine source statements [])
    (found : (hashBangOf source).1 ≠ []) :
    ∀ letter, (front ++ new).head? = some letter → letter = '\n' := by
  rcases hashBangOf_cases source with none | ⟨before, body, behind, hashBang⟩
  · rw [none] at found
    exact absurd rfl found
  · have whole := textOfAll_hashBangOf source
    have isSplit := hashBang.hashBangOf_eq
    have leads := opening.leads
    have empty := opening.dropWhile_eq_nil_iff
    clear opening
    generalize hashBangOf source = split at *
    subst isSplit
    cases gapText : textOfAll gap with
    | cons first others =>
        have isHead : textOfAll gap ++ rest = behind := leads.textOfAll_append
        rw [gapText] at isHead
        rw [same, gapText]
        rintro letter ⟨⟩
        exact hashBang.stops first (by rw [← isHead]; rfl)
    | nil =>
        have isRest : rest = behind := leads.rest_eq gapText
        -- Nothing follows the line, so it has no end yet.
        have nothing : rest = [] := by
          cases rest with
          | nil => rfl
          | cons first others =>
              have notBlank := leads.stops first rfl
              rw [hashBang.stops first (by rw [← isRest]; rfl)] at notBlank
              cases notBlank
        have isLine : textOfAll before ++ '#' :: '!' :: body = source := by
          rw [← whole, ← isRest, nothing]
          simp
        have last : source.getLast? ≠ some '\n' := by
          rw [← isLine]
          exact hashBang.getLast?_ne before
        have filled : source ≠ [] := by
          rw [← isLine]
          simp
        rw [same, gapText, addedLine_nil, if_pos ⟨empty.mpr nothing, filled, last⟩]
        rintro letter ⟨⟩
        rfl

theorem text_declarationOf_append (name specifier rest : Text) :
    (declarationOf name specifier).text ++ rest =
      Word.importWord ++ afterImport name specifier rest := by
  have word : "from".toList = Word.fromWord := rfl
  by_cases empty : specifier = []
  · simp [declarationOf, quoted, afterImport, empty, Tree.withRole, word]
  · simp [declarationOf, quoted, afterImport, empty, Tree.withRole, word]

/-- A script with the declaration added is read as the statements it had, the declaration in front of them. -/
theorem parse?_declaration (parsed : parse? source = some (.node none .program statements))
    (systemLine : SystemLineLeads statements) {name specifier : Text} (isIdentifier : IsIdentifier name)
    (plain : IsPlainText specifier) :
    ∃ front, (∀ tree ∈ front, isLeading tree = true) ∧
      textOfAll front =
        textOfAll (statements.takeWhile isLeading) ++ addedLine source statements [] ∧
      withoutTrivia front = withoutTrivia (statements.takeWhile isLeading) ∧
      parse? (textOfAll (front ++ declarationOf name specifier :: .leaf none .blank ['\n'] ::
          statements.dropWhile isLeading)) =
        some (.node none .program (front ++ declarationOf name specifier ::
          .leaf none .blank ['\n'] :: statements.dropWhile isLeading)) := by
  -- The text grows by the declaration and by two line ends at most.
  obtain ⟨fuel, enough⟩ : ∃ fuel,
      depthBound (source.length + (declarationOf name specifier).text.length + 2) ≤ fuel + 1 :=
    ⟨_, Nat.le_succ _⟩
  rw [depthBound] at enough
  have deep : depthBound source.length ≤ fuel + 1 := by
    rw [depthBound]
    omega
  obtain ⟨gap, rest, opening⟩ := exists_opening parsed systemLine deep
  have solid : IsSolid ((declarationOf name specifier).text ++ '\n' :: rest) := by
    rw [text_declarationOf_append]
    exact isIdentifier_importWord.isSolid _
  have noHashBang : Lexeme.hashBang.length? ((declarationOf name specifier).text ++ '\n' :: rest) =
      none := by
    rw [text_declarationOf_append]
    rfl
  have isBlank : ∀ letter ∈ ['\n'], isBlank letter = true := List.forall_mem_singleton.mpr rfl
  have newLine : Leads [.leaf none .blank ['\n']] rest ('\n' :: rest) :=
    .blanks isBlank opening.leads.stops
  obtain ⟨front, frontLeads, frontText⟩ := exists_leads_added solid opening
  have text : textOfAll ((hashBangOf source).1 ++ front ++ declarationOf name specifier ::
      .leaf none .blank ['\n'] :: statements.dropWhile isLeading) =
      textOfAll (hashBangOf source).1 ++
        (textOfAll front ++ ((declarationOf name specifier).text ++ '\n' :: rest)) := by
    simp [opening.textOfAll_eq]
  have begins := hashBangOf_replace opening.isLeading frontLeads solid noHashBang
    (head?_added opening frontText)
  refine ⟨(hashBangOf source).1 ++ front,
    List.forall_mem_append.mpr ⟨opening.isLeading, frontLeads.isLeading⟩, ?_, ?_, ?_⟩
  · rw [opening.takeWhile_eq, textOfAll_append, textOfAll_append, frontText, List.append_assoc]
  · rw [opening.takeWhile_eq, withoutTrivia_append, withoutTrivia_append, frontLeads.withoutTrivia,
      opening.leads.withoutTrivia]
  · have frontLength := congrArg List.length frontText
    have short := length_addedLine_nil source statements
    have bound := opening.length_le
    rw [List.length_append] at frontLength
    have deepAgain : depthBound (textOfAll (hashBangOf source).1 ++
        (textOfAll front ++ ((declarationOf name specifier).text ++ '\n' :: rest))).length ≤
          fuel + 1 := by
      simp only [depthBound, List.length_append, List.length_cons]
      omega
    rw [text, parse?_eq deepAgain, begins, statementsOf_leads frontLeads,
      text_declarationOf_append, statementsOf_declaration isIdentifier plain, statementsOf_leads newLine,
      opening.statementsOf_eq]
    · simp
    all_goals
      simp only [← text_declarationOf_append, List.length_append, List.length_cons]
      omega

end

end ImportMeter.Script
