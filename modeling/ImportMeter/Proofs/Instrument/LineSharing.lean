/-
This file says what is deleted with a declaration that shares its line with other code. The blanks in front
of it and those behind it are widened to the line one by one, each without a look at the other side.
-/
import ImportMeter.Proofs.Instrument.Deletion

namespace ImportMeter.Instrument

open Script

/-- What stands on the last line of a text. -/
def lastLine (text : Text) : Text := (text.reverse.takeWhile (· ≠ '\n')).reverse

/-- What stands on the first line of a text. -/
def firstLine (text : Text) : Text := text.takeWhile (· ≠ '\n')

/-- Blanks that end no line, or end it together with a line feed. -/
def isLineBlank (letter : Char) : Bool := isSpace letter || letter = '\r'

theorem isLineBlank_of_isSpace {letter : Char} (space : isSpace letter = true) :
    isLineBlank letter = true := by
  rw [isLineBlank, space, Bool.true_or]

/-- Nothing or a line feed follows the first line. -/
theorem head?_behind_firstLine (text : Text) :
    (text.dropWhile (· ≠ '\n')).head?.all (· = '\n') = true ∧
      ((text.dropWhile (· ≠ '\n')).head? = some '\n' ↔ '\n' ∈ text) := by
  induction text with
  | nil => exact ⟨rfl, by simp⟩
  | cons letter rest inductionHypothesis =>
      rw [List.dropWhile_cons]
      split
      next other =>
        have notSame : '\n' ≠ letter := Ne.symm (of_decide_eq_true other)
        rwa [List.mem_cons, or_iff_right notSame]
      next same =>
        obtain rfl : letter = '\n' := Decidable.not_not.mp fun other => same (decide_eq_true other)
        exact ⟨rfl, by simp⟩

/-- A scan that stops at line feeds passes the first line of a text, or stops in it. -/
theorem scan_firstLine (test : Char → Bool) (stops : test '\n' = false) (text : Text) :
    ((firstLine text).all test = true ∧ text.takeWhile test = firstLine text ∧
        text.dropWhile test = text.dropWhile (· ≠ '\n')) ∨
      ((firstLine text).all test = false ∧
        ∃ letter rest, letter ≠ '\n' ∧ text.dropWhile test = letter :: rest) := by
  induction text with
  | nil => exact .inl ⟨rfl, rfl, rfl⟩
  | cons letter rest inductionHypothesis =>
      by_cases newline : letter = '\n'
      · subst newline
        have blocked : ¬ test '\n' = true := by rw [stops]; exact Bool.false_ne_true
        refine .inl ⟨rfl, ?_, ?_⟩
        · exact List.takeWhile_cons_of_neg blocked
        · exact List.dropWhile_cons_of_neg blocked
      · have first : firstLine (letter :: rest) = letter :: firstLine rest :=
          List.takeWhile_cons_of_pos (decide_eq_true newline)
        have behind : (letter :: rest).dropWhile (· ≠ '\n') = rest.dropWhile (· ≠ '\n') :=
          List.dropWhile_cons_of_pos (decide_eq_true newline)
        rw [first, behind, List.all_cons]
        cases passes : test letter with
        | true =>
            rw [List.takeWhile_cons_of_pos passes, List.dropWhile_cons_of_pos passes, Bool.true_and]
            obtain ⟨all, taken, left⟩ | stopped := inductionHypothesis
            · exact .inl ⟨all, congrArg (letter :: ·) taken, left⟩
            · exact .inr stopped
        | false =>
            refine .inr ⟨Bool.false_and _, letter, rest, newline, ?_⟩
            exact List.dropWhile_cons_of_neg (by rw [passes]; exact Bool.false_ne_true)

/-- The indentation is the last line of a text if there is nothing else on it. -/
theorem indentation_eq_ite (text : Text) :
    indentation text = if (lastLine text).all isSpace then (lastLine text).length else 0 := by
  rw [lastLine, List.all_reverse, List.length_reverse, indentation]
  obtain ⟨all, taken, left⟩ | ⟨notAll, letter, rest, newline, left⟩ :=
    scan_firstLine isSpace rfl text.reverse
  · rw [left, (head?_behind_firstLine _).1, taken, if_pos rfl]
    exact (if_pos all).symm
  · rw [left, List.head?_cons, Option.all_some, decide_eq_false newline, if_neg Bool.false_ne_true]
    exact (if_neg (by rw [← firstLine, notAll]; exact Bool.false_ne_true)).symm

/-- The end of a line is its blanks and the line feed if there is nothing else on it. -/
theorem lineEnd_eq_ite (text : Text) :
    lineEnd text = if (firstLine text).all isLineBlank = true ∧ '\n' ∈ text then
      (firstLine text).length + 1 else (text.takeWhile isLineBlank).length := by
  have isRun : lineEnd text = (text.takeWhile isLineBlank).length +
      if (text.dropWhile isLineBlank).head? = some '\n' then 1 else 0 := rfl
  rw [isRun]
  obtain ⟨all, taken, left⟩ | ⟨notAll, letter, rest, newline, left⟩ :=
    scan_firstLine isLineBlank rfl text
  · have ends := (head?_behind_firstLine text).2
    rw [left, taken, all]
    by_cases newline : '\n' ∈ text
    · rw [if_pos (ends.mpr newline), if_pos ⟨rfl, newline⟩]
    · rw [if_neg fun isEnd => newline (ends.mp isEnd), if_neg fun both => newline both.2]
      rfl
  · rw [left, List.head?_cons, if_neg fun same => newline (Option.some.inj same), notAll,
      if_neg fun both => Bool.false_ne_true both.1]
    rfl

/-! ### The texts that are taken -/

theorem lastLine_suffix (text : Text) : lastLine text <:+ text := by
  have isPrefix : firstLine text.reverse <+: text.reverse := List.takeWhile_prefix _
  rwa [← List.reverse_suffix, List.reverse_reverse] at isPrefix

/-- What is taken in front of a statement is all of its line there, or nothing. -/
theorem slice_front {source : Text} {statement : Range} (proper : statement.start ≤ statement.stop)
    (inside : statement.stop ≤ source.length) :
    source.slice (lineRange source statement).start statement.start =
      if (lastLine (source.take statement.start)).all isSpace then
        lastLine (source.take statement.start)
      else [] := by
  obtain ⟨earlier, split⟩ := lastLine_suffix (source.take statement.start)
  have length : earlier.length + (lastLine (source.take statement.start)).length =
      statement.start := by
    rw [← List.length_append, split, List.length_take]
    omega
  rw [lineRange_eq proper inside, indentation_eq_ite]
  generalize lastLine (source.take statement.start) = last at split length
  split
  · show source.slice (statement.start - last.length) statement.start = last
    rw [show statement.start - last.length = earlier.length by omega, Text.slice, ← List.drop_take,
      ← split, List.drop_left]
  · exact Text.slice_same source statement.start

/-- What is taken behind a statement is all of its line there and the line feed, or the blanks that it
begins with. -/
theorem slice_behind {source : Text} {statement : Range} (proper : statement.start ≤ statement.stop)
    (inside : statement.stop ≤ source.length) :
    source.slice statement.stop (lineRange source statement).stop =
      if (firstLine (source.drop statement.stop)).all isLineBlank = true ∧
          '\n' ∈ source.drop statement.stop then
        firstLine (source.drop statement.stop) ++ ['\n']
      else (source.drop statement.stop).takeWhile isLineBlank := by
  rw [lineRange_eq proper inside, lineEnd_eq_ite, Text.slice, Nat.add_sub_cancel_left]
  generalize source.drop statement.stop = behind
  split
  next both =>
    have isEnd := (head?_behind_firstLine behind).2.mpr both.2
    obtain ⟨rest, others⟩ := List.head?_eq_some_iff.mp isEnd
    have split : firstLine behind ++ '\n' :: rest = behind := by
      rw [← others]
      exact List.takeWhile_append_dropWhile
    rw [← List.singleton_append, ← List.append_assoc] at split
    have isPrefix : firstLine behind ++ ['\n'] <+: behind := ⟨rest, split⟩
    have length : (firstLine behind).length + 1 = (firstLine behind ++ ['\n']).length := by
      rw [List.length_append, List.length_singleton]
    rw [length]
    exact (List.prefix_iff_eq_take.mp isPrefix).symm
  next => exact (List.prefix_iff_eq_take.mp (List.takeWhile_prefix isLineBlank)).symm

theorem newline_notMem_of_lineBlank {text : Text} (blank : text.all isLineBlank = true) :
    '\n' ∉ text := by
  intro member
  exact absurd (List.all_eq_true.mp blank '\n' member) (by decide)

/-- Nothing but blanks stands on the lines of a statement, in front of it or behind it. -/
def Alone (source : Text) (statement : Range) : Prop :=
  (lastLine (source.take statement.start)).all isLineBlank = true ∧
    (firstLine (source.drop statement.stop)).all isLineBlank = true

instance (source : Text) (statement : Range) : Decidable (Alone source statement) :=
  inferInstanceAs (Decidable (_ ∧ _))

/-- A statement is widened by blanks and at most a line feed behind them. The indentation is taken in if
nothing else stands in front of the statement on its line, and the line feed is if nothing but blanks stands
between it and the statement. So a statement that is not alone keeps both unless code stands on one side
only. -/
theorem lineRange_taken {source : Text} {statement : Range}
    (proper : statement.start ≤ statement.stop) (inside : statement.stop ≤ source.length) :
    let line := lineRange source statement
    let front := lastLine (source.take statement.start)
    let behind := firstLine (source.drop statement.stop)
    let indentation := source.slice line.start statement.start
    let ending := source.slice statement.stop line.stop
    (line.start ≤ statement.start ∧ statement.stop ≤ line.stop ∧ line.stop ≤ source.length) ∧
      indentation = (if front.all isSpace then front else []) ∧
      (∃ blanks lineBreak, ending = blanks ++ lineBreak ∧ blanks.all isLineBlank = true ∧
        (lineBreak = [] ∨ lineBreak = ['\n'])) ∧
      ('\n' ∈ ending ↔ behind.all isLineBlank = true ∧ '\n' ∈ source.drop statement.stop) ∧
      ((indentation ≠ [] ∨ '\n' ∈ ending → Alone source statement) ↔
        ¬(indentation ≠ [] ∧ behind.all isLineBlank = false) ∧
          ¬('\n' ∈ ending ∧ front.all isLineBlank = false)) := by
  intro line front behind indentation ending
  obtain ⟨low, high, within, -, -⟩ := lineRange_spec inside proper
  have inFront : indentation = if front.all isSpace then front else [] := slice_front proper inside
  have isEnding : ending = if behind.all isLineBlank = true ∧ '\n' ∈ source.drop statement.stop then
      behind ++ ['\n'] else (source.drop statement.stop).takeWhile isLineBlank :=
    slice_behind proper inside
  have takesEnd : '\n' ∈ ending ↔
      behind.all isLineBlank = true ∧ '\n' ∈ source.drop statement.stop := by
    rw [isEnding]
    split
    next both => exact ⟨fun _ => both, fun _ => List.mem_append_right behind List.mem_cons_self⟩
    next other =>
      refine ⟨fun member => absurd member ?_, fun both => absurd both other⟩
      exact newline_notMem_of_lineBlank List.all_takeWhile
  have blankFront : indentation ≠ [] → front.all isLineBlank = true := by
    intro taken
    have space : front.all isSpace = true :=
      Decidable.of_not_not fun other => taken (inFront.trans (if_neg other))
    rw [List.all_eq_true] at space ⊢
    exact fun letter member => isLineBlank_of_isSpace (space letter member)
  refine ⟨⟨low, high, within⟩, inFront, ?_, takesEnd, ?_⟩
  · rw [isEnding]
    split
    next both => exact ⟨behind, ['\n'], rfl, both.1, .inr rfl⟩
    next => exact ⟨_, [], (List.append_nil _).symm, List.all_takeWhile, .inl rfl⟩
  · constructor
    · intro rule
      refine ⟨?_, ?_⟩
      · rintro ⟨taken, code⟩
        exact Bool.false_ne_true (code.symm.trans (rule (.inl taken)).2)
      · rintro ⟨taken, code⟩
        exact Bool.false_ne_true (code.symm.trans (rule (.inr taken)).1)
    · rintro ⟨noneBehind, noneInFront⟩ (taken | taken)
      · exact ⟨blankFront taken, Bool.of_not_eq_false fun code => noneBehind ⟨taken, code⟩⟩
      · exact ⟨Bool.of_not_eq_false fun code => noneInFront ⟨taken, code⟩, (takesEnd.mp taken).1⟩

/-- A statement alone on an indented line, with a carriage return at its end. -/
def loneStatement : Text := "é();\n  p;\r\nb();".toList

theorem lineRange_taken_loneStatement :
    (7 ≤ 9 ∧ 9 ≤ loneStatement.length) ∧ Alone loneStatement ⟨7, 9⟩ ∧
      loneStatement.slice (lineRange loneStatement ⟨7, 9⟩).start 7 = [' ', ' '] ∧
      '\n' ∈ loneStatement.slice 9 (lineRange loneStatement ⟨7, 9⟩).stop := by
  have proper : (⟨7, 9⟩ : Range).start ≤ (⟨7, 9⟩ : Range).stop := by decide
  have inside : (⟨7, 9⟩ : Range).stop ≤ loneStatement.length := by decide
  obtain ⟨-, indentation, -, takesEnd, -⟩ := lineRange_taken proper inside
  exact ⟨by decide, by decide, indentation.trans (by decide), takesEnd.mpr (by decide)⟩

/-- An import of the entry point behind code on the same line. -/
def importBehindCode : Text := "a();import p from './p';\nb();\np('x',0,0,'m')".toList

/-- The line break goes with the import, so the next line is drawn up to the code that stays. -/
theorem lineRange_taken_importBehindCode :
    ¬Alone importBehindCode ⟨4, 24⟩ ∧
      '\n' ∈ importBehindCode.slice 24 (lineRange importBehindCode ⟨4, 24⟩).stop ∧
      remove? ⟨['/']⟩ importBehindCode ⟨"/f".toList⟩ smallEntry =
        some ⟨some "a();b();\nimport('x')".toList, 1, false, true, [], none⟩ := by
  refine ⟨by decide, by decide, by decide +kernel⟩

end ImportMeter.Instrument
