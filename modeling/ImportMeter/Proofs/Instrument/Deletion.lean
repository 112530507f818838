/-
This file says which blanks go with the declaration of the entry point: it depends on nothing but the ends
of the texts in front of the declaration and behind it.
-/
import ImportMeter.Proofs.Instrument.Statements

namespace ImportMeter.Instrument

open Script

/-- The number of blanks that a text ends with, if they begin a line. -/
def indentation (text : Text) : Nat :=
  if (text.reverse.dropWhile isSpace).head?.all (· = '\n') then
    (text.reverse.takeWhile isSpace).length
  else 0

/-- The number of blanks that a text begins with, together with the end of the line. -/
def lineEnd (text : Text) : Nat :=
  (text.takeWhile fun letter => isSpace letter || letter = '\r').length +
    if (text.dropWhile fun letter => isSpace letter || letter = '\r').head? = some '\n' then 1 else 0

/-- Behind a run of letters that pass a test comes the first that does not. -/
theorem getElem?_takeWhile_length {α : Type} (test : α → Bool) (list : List α) :
    list[(list.takeWhile test).length]? = (list.dropWhile test).head? := by
  induction list with
  | nil => rfl
  | cons first rest inductionHypothesis =>
      rw [List.takeWhile_cons, List.dropWhile_cons]
      split
      next => rw [List.length_cons, List.getElem?_cons_succ, inductionHypothesis]
      next => rfl

/-- A run of blanks at the end of a text begins a line if nothing but a line end stands in front of it. -/
theorem head?_all_newline (text : Text) {blanks : Nat}
    (run : (text.reverse.takeWhile isSpace).length = blanks) :
    (text.reverse.dropWhile isSpace).head?.all (· = '\n') = true ↔
      text.length - blanks = 0 ∨ text[text.length - blanks - 1]? = some '\n' := by
  have atMost : blanks ≤ text.length := by
    rw [← run]
    exact Nat.le_trans (List.takeWhile_sublist _).length_le (Nat.le_of_eq List.length_reverse)
  have previous := getElem?_takeWhile_length isSpace text.reverse
  rw [run] at previous
  rw [← previous]
  by_cases whole : blanks = text.length
  · have behind : text.reverse.length ≤ blanks := Nat.le_of_eq (List.length_reverse.trans whole.symm)
    rw [List.getElem?_eq_none behind]
    simp [whole]
  · have inside : blanks < text.length := by omega
    rw [List.getElem?_reverse inside, show text.length - 1 - blanks = text.length - blanks - 1 by omega,
      List.getElem?_eq_getElem (by omega)]
    simp only [Option.all_some, decide_eq_true_eq, Option.some.injEq]
    exact ⟨.inr, fun newline => newline.resolve_left (by omega)⟩

/-- The code's range of a line, by the texts around the statement. -/
theorem lineRange_eq {source : Text} {statement : Range} (proper : statement.start ≤ statement.stop)
    (inside : statement.stop ≤ source.length) :
    lineRange source statement =
      ⟨statement.start - indentation (source.take statement.start),
        statement.stop + lineEnd (source.drop statement.stop)⟩ := by
  have length : (source.take statement.start).length = statement.start := by
    rw [List.length_take]
    omega
  have next : source[statement.stop + ((source.drop statement.stop).takeWhile fun letter =>
        isSpace letter || letter = '\r').length]? =
      ((source.drop statement.stop).dropWhile fun letter => isSpace letter || letter = '\r').head? := by
    rw [← List.getElem?_drop, getElem?_takeWhile_length]
  have begins := head?_all_newline (source.take statement.start) rfl
  rw [length] at begins
  generalize run : ((source.take statement.start).reverse.takeWhile isSpace).length = blanks at begins
  have front : (statement.start - blanks = 0 || source[statement.start - blanks - 1]? = some '\n') =
      ((source.take statement.start).reverse.dropWhile isSpace).head?.all (· = '\n') := by
    rw [Bool.eq_iff_iff, begins, Bool.or_eq_true, decide_eq_true_eq, decide_eq_true_eq]
    by_cases first : statement.start = 0
    · simp [first]
    · rw [List.getElem?_take_of_lt (by omega)]
  rw [lineRange, indentation, lineEnd, run]
  simp only [next, front]
  congr 1
  · split <;> rfl
  · split <;> rfl

/-- True of texts that are the same, or the same up to letters that are no blanks. -/
def SameBegin (first second : Text) : Prop :=
  first = second ∨ ∃ front letter rest other otherRest, isBlank letter = false ∧
    isBlank other = false ∧ first = front ++ letter :: rest ∧ second = front ++ other :: otherRest

namespace SameBegin

theorem append {first second firstRest secondRest : Text} (same : SameBegin first second)
    (sameRest : SameBegin firstRest secondRest) :
    SameBegin (first ++ firstRest) (second ++ secondRest) := by
  rcases same with rfl | ⟨front, letter, rest, other, otherRest, notBlank, otherNotBlank, rfl, rfl⟩
  · rcases sameRest with rfl | ⟨front, letter, rest, other, otherRest, notBlank, otherNotBlank, rfl, rfl⟩
    · exact .inl rfl
    · exact .inr ⟨first ++ front, letter, rest, other, otherRest, notBlank, otherNotBlank,
        (List.append_assoc _ _ _).symm, (List.append_assoc _ _ _).symm⟩
  · exact .inr ⟨front, letter, rest ++ firstRest, other, otherRest ++ secondRest, notBlank,
      otherNotBlank, List.append_assoc _ _ _, List.append_assoc _ _ _⟩

/-- The runs of blanks that such texts begin with are of one length, and so is what follows, unless it is
no blank. -/
theorem run {first second : Text} {test : Char → Bool} (same : SameBegin first second)
    (blank : ∀ letter, test letter = true → isBlank letter = true) :
    (first.takeWhile test).length = (second.takeWhile test).length ∧
      ((first.dropWhile test).head? = (second.dropWhile test).head? ∨
        ∃ letter other, isBlank letter = false ∧ isBlank other = false ∧
          (first.dropWhile test).head? = some letter ∧
          (second.dropWhile test).head? = some other) := by
  rcases same with rfl | ⟨front, letter, rest, other, otherRest, notBlank, otherNotBlank, rfl, rfl⟩
  · exact ⟨rfl, .inl rfl⟩
  · have stops : ∀ letter, isBlank letter = false → ¬ test letter = true := by
      intro letter notBlank passes
      rw [blank letter passes] at notBlank
      cases notBlank
    induction front with
    | nil =>
        rw [List.nil_append, List.nil_append, List.takeWhile_cons_of_neg (stops letter notBlank),
          List.takeWhile_cons_of_neg (stops other otherNotBlank),
          List.dropWhile_cons_of_neg (stops letter notBlank),
          List.dropWhile_cons_of_neg (stops other otherNotBlank)]
        exact ⟨rfl, .inr ⟨letter, other, notBlank, otherNotBlank, rfl, rfl⟩⟩
    | cons first front inductionHypothesis =>
        rw [List.cons_append, List.cons_append, List.takeWhile_cons, List.takeWhile_cons,
          List.dropWhile_cons, List.dropWhile_cons]
        split
        next =>
          rw [List.length_cons, List.length_cons, inductionHypothesis.1]
          exact ⟨rfl, inductionHypothesis.2⟩
        next => exact ⟨rfl, .inl rfl⟩

theorem ne_newline {letter : Char} (notBlank : isBlank letter = false) : letter ≠ '\n' := by
  rintro rfl
  exact absurd notBlank (by decide)

theorem lineEnd_eq {first second : Text} (same : SameBegin first second) :
    lineEnd first = lineEnd second := by
  have blank : ∀ letter : Char, (isSpace letter || letter = '\r') = true → isBlank letter = true := by
    intro letter passes
    rw [Bool.or_eq_true, decide_eq_true_eq] at passes
    rcases passes with space | rfl
    · exact isBlank_of_isSpace space
    · decide
  obtain ⟨length, heads⟩ := same.run blank
  rw [lineEnd, lineEnd, length]
  rcases heads with heads | ⟨letter, other, notBlank, otherNotBlank, head, otherHead⟩
  · rw [heads]
  · rw [head, otherHead, if_neg (by simpa using ne_newline notBlank),
      if_neg (by simpa using ne_newline otherNotBlank)]

theorem indentation_eq {first second : Text} (same : SameBegin first.reverse second.reverse) :
    indentation first = indentation second := by
  obtain ⟨length, heads⟩ := same.run fun _ => isBlank_of_isSpace
  rw [indentation, indentation, length]
  rcases heads with heads | ⟨letter, other, notBlank, otherNotBlank, head, otherHead⟩
  · rw [heads]
  · rw [head, otherHead, if_neg (by simpa using ne_newline notBlank),
      if_neg (by simpa using ne_newline otherNotBlank)]

end SameBegin

/-- The text of rewritten statements around a declaration, without the blanks that go with it. -/
def textAround (rewrite : Tree → Tree) (before after : List Tree) : Text :=
  let front := Tree.textOfAll (before.map rewrite)
  front.take (front.length - indentation (Tree.textOfAll before)) ++
    (Tree.textOfAll (after.map rewrite)).drop (lineEnd (Tree.textOfAll after))

namespace Around

variable (around : Around) (callees : List Text) (marker : Text)

theorem line_eq : around.line =
    ⟨around.statement.start - indentation (Tree.textOfAll around.before),
      around.statement.stop + lineEnd (Tree.textOfAll around.after)⟩ := by
  have front : around.text.take around.statement.start = Tree.textOfAll around.before := by
    rw [text, show around.statement.start = Tree.widthOfAll around.before from rfl, Tree.widthOfAll_eq]
    exact List.take_left
  have behind : around.text.drop around.statement.stop = Tree.textOfAll around.after := by
    rw [text, show around.statement.stop = Tree.widthOfAll around.before + around.declaration.width
      from rfl, Tree.widthOfAll_eq, Tree.width_eq, ← List.append_assoc, ← List.length_append]
    exact List.drop_left
  rw [line, lineRange_eq (Nat.le_add_right _ _) around.stop_le, front, behind]

/-- What is left around a deleted declaration. -/
theorem unwrapIn_around :
    unwrapIn around.text callees marker around.tree ⟨0, around.line.start⟩ 0 ++
        unwrapIn around.text callees marker around.tree ⟨around.line.stop, around.text.length⟩ 0 =
      textAround (unwrapTree callees marker) around.before around.after := by
  obtain ⟨low, high, within, _, _⟩ := around.line_spec
  have lineStart := congrArg Range.start around.line_eq
  have lineStop := congrArg Range.stop around.line_eq
  simp only at lineStart lineStop
  have stop := around.stop_le
  have proper : around.statement.start ≤ around.statement.stop := Nat.le_add_right _ _
  have atMost : indentation (Tree.textOfAll around.before) ≤ around.statement.start := by
    rw [show around.statement.start = Tree.widthOfAll around.before from rfl, Tree.widthOfAll_eq,
      indentation]
    split
    · exact Nat.le_trans (List.takeWhile_sublist _).length_le (Nat.le_of_eq List.length_reverse)
    · exact Nat.zero_le _
  have blanks : (around.text.slice around.line.start around.statement.start).length =
      indentation (Tree.textOfAll around.before) := by
    rw [Text.slice_length (by omega)]
    omega
  have ends : (around.text.slice around.statement.stop around.line.stop).length =
      lineEnd (Tree.textOfAll around.after) := by
    rw [Text.slice_length within]
    omega
  rw [textAround, ← around.unwrapIn_front, ← around.unwrapIn_behind, List.length_append, blanks,
    Nat.add_sub_cancel, ← ends, List.take_left, List.drop_left]

end Around

/-- The statements in front of the first default import of a module. -/
def beforeImport (directory target : Path) (statements : List Tree) : List Tree :=
  statements.takeWhile fun tree => !(declared? tree).any (·.imports directory target)

/-- The statements behind the first default import of a module. -/
def afterImport (directory target : Path) (statements : List Tree) : List Tree :=
  (statements.dropWhile fun tree => !(declared? tree).any (·.imports directory target)).tail

section

variable {directory target : Path} {before after : List Tree} {declaration : Tree}

theorem beforeImport_split (imports : (declared? declaration).any (·.imports directory target) = true)
    (others : ∀ tree ∈ before, (declared? tree).any (·.imports directory target) = false) :
    beforeImport directory target (before ++ declaration :: after) = before := by
  rw [beforeImport, List.takeWhile_append_of_pos fun tree member => by rw [others tree member]; rfl]
  simp [imports]

theorem afterImport_split (imports : (declared? declaration).any (·.imports directory target) = true)
    (others : ∀ tree ∈ before, (declared? tree).any (·.imports directory target) = false) :
    afterImport directory target (before ++ declaration :: after) = after := by
  rw [afterImport, List.dropWhile_append_of_pos fun tree member => by rw [others tree member]; rfl]
  simp [imports]

/-- They are the same statements after calls have been rewritten. -/
theorem beforeImport_map {rewrite : Tree → Tree} (descends : Tree.Descends rewrite)
    {statements : List Tree} (wellFormed : ∀ tree ∈ statements, tree.WellFormed) :
    beforeImport directory target (statements.map rewrite) =
      (beforeImport directory target statements).map rewrite := by
  rw [beforeImport, beforeImport]
  induction statements with
  | nil => rfl
  | cons tree rest inductionHypothesis =>
      rw [List.map_cons, List.takeWhile_cons, List.takeWhile_cons,
        declared?_rewrite descends (wellFormed tree List.mem_cons_self),
        inductionHypothesis fun other member => wellFormed other (List.mem_cons_of_mem tree member)]
      split
      next => rfl
      next => rfl

theorem afterImport_map {rewrite : Tree → Tree} (descends : Tree.Descends rewrite)
    {statements : List Tree} (wellFormed : ∀ tree ∈ statements, tree.WellFormed) :
    afterImport directory target (statements.map rewrite) =
      (afterImport directory target statements).map rewrite := by
  rw [afterImport, afterImport]
  induction statements with
  | nil => rfl
  | cons tree rest inductionHypothesis =>
      rw [List.map_cons, List.dropWhile_cons, List.dropWhile_cons,
        declared?_rewrite descends (wellFormed tree List.mem_cons_self)]
      split
      next =>
        exact inductionHypothesis fun other member =>
          wellFormed other (List.mem_cons_of_mem tree member)
      next => rfl

end

theorem mem_of_mem_beforeImport {directory target : Path} {statements : List Tree} {tree : Tree}
    (member : tree ∈ beforeImport directory target statements) : tree ∈ statements :=
  (List.takeWhile_sublist _).mem member

theorem mem_of_mem_afterImport {directory target : Path} {statements : List Tree} {tree : Tree}
    (member : tree ∈ afterImport directory target statements) : tree ∈ statements :=
  (List.dropWhile_sublist _).mem (List.mem_of_mem_tail member)

/-- The text that removal leaves, by the statements of the script. -/
theorem removeTree_left {source : Text} {statements : List Tree} (directory : Path)
    (instrumentation : Instrumentation) {callees : List Text}
    (wellFormed : (Script.Tree.node none .program statements).WellFormed)
    (same : (Script.Tree.node none .program statements).text = source)
    (named : (instrumentation.localNames (findBinding? (.node none .program statements) directory
      instrumentation.modulePath)).2 = callees) {outcome : Outcome}
    (removed : removeTree source (.node none .program statements) directory instrumentation =
      outcome) :
    (outcome.importRemoved = false → outcome.textOr source =
        Tree.textOfAll (statements.map (unwrapTree callees instrumentation.marker))) ∧
      (outcome.importRemoved = true → outcome.textOr source =
        textAround (unwrapTree callees instrumentation.marker)
          (beforeImport directory instrumentation.modulePath statements)
          (afterImport directory instrumentation.modulePath statements)) := by
  obtain ⟨kept, deleted⟩ := removeTree_text directory instrumentation wellFormed same rfl named
    (fun _ => rfl) removed
  refine ⟨fun stays => by rw [kept stays, unwrapIn_whole wellFormed same], fun goes => ?_⟩
  obtain ⟨found, bound, left, _⟩ := deleted goes
  obtain ⟨before, after, rfl, start, isImport, declares, imports, others⟩ := findBinding?_split bound
  have imports : (declared? found.statement.focus).any
      (·.imports directory instrumentation.modulePath) = true := by rw [declares]; exact imports
  let around : Around := ⟨before, found.statement.focus, after, isImport, wellFormed⟩
  obtain rfl : around.text = source := around.text_tree.symm.trans same
  have isStatement : around.statement = found.statement.range := by
    rw [Place.range, Place.stop, start]
    rfl
  rw [← isStatement] at left
  rw [left, beforeImport_split imports others, afterImport_split imports others]
  exact around.unwrapIn_around callees instrumentation.marker

end ImportMeter.Instrument
