/-
This file proves that white space and comments are read again as they were when the text behind them
changes, and that nothing of them is left in front of the token that they end at.
-/
import ImportMeter.Proofs.Script.Depth
import Mathlib.Data.List.Basic

namespace ImportMeter.Script

open ImportMeter.Script.Tree

variable {markup : Bool} {text front letters next rest : Text} {fuel more length : Nat}
  {trees gap : List Tree}

/-! ### Runs of characters -/

/-- A text is what passes a test and then what begins with a letter that does not. -/
theorem exists_run (test : Char → Bool) (text : Text) :
    ∃ front rest, text = front ++ rest ∧ (∀ letter ∈ front, test letter = true) ∧
      ∀ letter, rest.head? = some letter → test letter = false := by
  refine ⟨text.takeWhile test, text.dropWhile test, List.takeWhile_append_dropWhile.symm,
    fun letter member => List.all_eq_true.mp List.all_takeWhile letter member,
    fun letter isHead => ?_⟩
  have stops := List.head?_dropWhile_not test text
  rwa [isHead] at stops

theorem runLength_append {test : Char → Bool} (inside : ∀ letter ∈ front, test letter = true)
    (stops : ∀ letter, rest.head? = some letter → test letter = false) :
    runLength test (front ++ rest) = front.length := by
  induction front with
  | nil =>
      cases rest with
      | nil => rfl
      | cons letter rest => exact if_neg (by simp [stops letter rfl])
  | cons letter front inductionHypothesis =>
      obtain ⟨first, others⟩ := List.forall_mem_cons.mp inside
      rw [List.cons_append, runLength, if_pos first, inductionHypothesis others, List.length_cons]

/-- The trees for a run of blanks. -/
def blankTrees (letters : Text) : List Tree :=
  if letters = [] then [] else [.leaf none .blank letters]

theorem textOfAll_blankTrees (letters : Text) : textOfAll (blankTrees letters) = letters := by
  rw [blankTrees]
  split
  next empty => exact empty.symm
  next => exact List.append_nil letters

/-- Blanks in front of something else. -/
theorem blanksOf_append (blanks : ∀ letter ∈ front, isBlank letter = true)
    (stops : ∀ letter, rest.head? = some letter → isBlank letter = false) :
    blanksOf (front ++ rest) = (blankTrees front, rest) := by
  rw [blanksOf, runLength_append blanks stops]
  cases front with
  | nil => rfl
  | cons letter front =>
      simp only [List.length_cons, List.take_left', List.drop_left', blankTrees, reduceCtorEq,
        if_false]

theorem blanksOf_eq_nil (stops : ∀ letter, text.head? = some letter → isBlank letter = false) :
    blanksOf text = ([], text) := by
  have nothing : blanksOf ([] ++ text) = ([], text) := blanksOf_append nofun stops
  rwa [List.nil_append] at nothing

/-! ### Comments -/

/-- True for a letter that ends a comment on one line. -/
def endsLine (letter : Char) : Bool := letter = '\r' || isLineEnd letter

theorem isBlank_of_endsLine {letter : Char} (ends : endsLine letter = true) :
    isBlank letter = true := by
  rw [endsLine, Bool.or_eq_true, decide_eq_true_eq] at ends
  rcases ends with rfl | lineEnd
  · decide
  · simp only [isLineEnd, Bool.or_eq_true, beq_iff_eq] at lineEnd
    simp only [isBlank, Bool.or_eq_true, Bool.and_eq_true, beq_iff_eq, decide_eq_true_eq]
    omega

/-- A comment that markup has nothing to do with, in front of what follows it. -/
inductive IsComment : Text → Text → Prop where
  | line {body next : Text} (inside : ∀ letter ∈ body, endsLine letter = false)
      (stops : ∀ letter, next.head? = some letter → endsLine letter = true) :
      IsComment ('/' :: '/' :: body) next
  | block {body next : Text} (closes : blockCommentTail body = some body.length) :
      IsComment ('/' :: '*' :: body) next

/-- What closes a block comment is the first star and slash. -/
theorem blockCommentTail_cons {letter : Char} (notClosed : letter = '*' → text.head? ≠ some '/') :
    blockCommentTail (letter :: text) = (blockCommentTail text).map (· + 1) := by
  rw [blockCommentTail]
  rintro rest rfl rfl
  exact notClosed rfl rfl

theorem blockCommentTail_append {body : Text} (closes : blockCommentTail body = some body.length)
    (next : Text) : blockCommentTail (body ++ next) = some body.length := by
  induction body with
  | nil => cases closes
  | cons letter body inductionHypothesis =>
      by_cases closed : letter = '*' ∧ body.head? = some '/'
      · obtain ⟨rfl, slash⟩ := closed
        obtain ⟨rest, rfl⟩ := List.head?_eq_some_iff.mp slash
        exact closes
      · have notClosed := not_and.mp closed
        rw [blockCommentTail_cons notClosed, Option.map_eq_some_iff] at closes
        obtain ⟨length, closes, same⟩ := closes
        obtain rfl : length = body.length := Nat.succ.inj same
        have filled : body ≠ [] := by
          rintro rfl
          cases closes
        rw [List.cons_append, blockCommentTail_cons, inductionHypothesis closes]
        · rfl
        · cases body with
          | nil => exact absurd rfl filled
          | cons => exact notClosed

theorem exists_blockCommentTail (closes : blockCommentTail text = some length) :
    ∃ body next, text = body ++ next ∧ blockCommentTail body = some body.length ∧
      body.length = length := by
  induction text generalizing length with
  | nil => cases closes
  | cons letter text inductionHypothesis =>
      by_cases closed : letter = '*' ∧ text.head? = some '/'
      · obtain ⟨rfl, slash⟩ := closed
        obtain ⟨rest, rfl⟩ := List.head?_eq_some_iff.mp slash
        cases closes
        exact ⟨['*', '/'], rest, rfl, rfl, rfl⟩
      · have notClosed := not_and.mp closed
        rw [blockCommentTail_cons notClosed, Option.map_eq_some_iff] at closes
        obtain ⟨length, closes, rfl⟩ := closes
        obtain ⟨body, next, rfl, ownClose, rfl⟩ := inductionHypothesis closes
        refine ⟨letter :: body, next, rfl, ?_, rfl⟩
        cases body with
        | nil => cases ownClose
        | cons second body =>
            have notClosed : letter = '*' → (second :: body).head? ≠ some '/' := notClosed
            rw [blockCommentTail_cons notClosed, ownClose]
            rfl

theorem IsComment.commentLength_append (isComment : IsComment letters next) :
    commentLength markup (letters ++ next) = some (.comment, letters.length) := by
  cases isComment with
  | @line body _ inside stops =>
      have run : runLength (fun letter => letter ≠ '\r' && !isLineEnd letter) (body ++ next) =
          body.length := by
        refine runLength_append (fun letter member => ?_) fun letter isHead => ?_
        · have passes := inside letter member
          rw [endsLine, Bool.or_eq_false_iff, decide_eq_false_iff_not] at passes
          simp [passes.1, passes.2]
        · have fails := stops letter isHead
          rw [endsLine, Bool.or_eq_true, decide_eq_true_eq] at fails
          rcases fails with rfl | fails
          · rfl
          · simp [fails]
      rw [List.cons_append, List.cons_append, commentLength, run, Nat.add_comm]
      rfl
  | @block body _ closes =>
      rw [List.cons_append, List.cons_append, commentLength, blockCommentTail_append closes]
      rfl

theorem exists_isComment (found : commentLength markup text = some (.comment, length)) :
    ∃ letters next, text = letters ++ next ∧ IsComment letters next ∧ letters.length = length := by
  unfold commentLength at found
  split at found
  next rest =>
    cases found
    obtain ⟨body, next, rfl, inside, stops⟩ := exists_run (fun letter => !endsLine letter) rest
    have isComment : IsComment ('/' :: '/' :: body) next :=
      .line (by simpa using inside) (by simpa using stops)
    have length : commentLength markup ('/' :: '/' :: body ++ next) = _ :=
      isComment.commentLength_append
    rw [List.cons_append, List.cons_append, commentLength] at length
    exact ⟨_, next, rfl, isComment, (congrArg Prod.snd (Option.some.inj length)).symm⟩
  next rest =>
    obtain ⟨tail, closes, same⟩ := Option.map_eq_some_iff.mp found
    cases same
    obtain ⟨body, next, rfl, ownClose, rfl⟩ := exists_blockCommentTail closes
    exact ⟨'/' :: '*' :: body, next, rfl, .block ownClose, rfl⟩
  next => split at found <;> cases found
  next => split at found <;> cases found
  next => cases found

/-! ### Leading white space and comments -/

/-- A text begins with white space and comments, those of markup apart, and goes on with something else
than a blank. -/
inductive Leads : List Tree → Text → Text → Prop where
  | blanks {front rest : Text} (blanks : ∀ letter ∈ front, isBlank letter = true)
      (stops : ∀ letter, rest.head? = some letter → isBlank letter = false) :
      Leads (blankTrees front) rest (front ++ rest)
  | comment {front letters next rest : Text} {trees : List Tree}
      (blanks : ∀ letter ∈ front, isBlank letter = true) (isComment : IsComment letters next)
      (behind : Leads trees rest next) :
      Leads (blankTrees front ++ .leaf none .comment letters :: trees) rest
        (front ++ (letters ++ next))

theorem IsComment.head? (isComment : IsComment letters next) : letters.head? = some '/' := by
  cases isComment <;> rfl

theorem IsComment.stops (isComment : IsComment letters next) :
    ∀ letter, (letters ++ next).head? = some letter → isBlank letter = false := by
  intro letter isHead
  rw [List.head?_append, isComment.head?] at isHead
  cases isHead
  decide

/-- A comment behind blanks is read, and then what follows it. -/
theorem gapOf_comment (blanks : ∀ letter ∈ front, isBlank letter = true)
    (isComment : IsComment letters next) :
    gapOf markup (fuel + 1) (front ++ (letters ++ next)) =
      (blankTrees front ++ .leaf none .comment letters :: (gapOf markup fuel next).1,
        (gapOf markup fuel next).2) := by
  have comment : commentOf markup (front ++ (letters ++ next)) =
      some (blankTrees front ++ [.leaf none .comment letters], next) := by
    rw [commentOf, blanksOf_append blanks isComment.stops]
    simp only [isComment.commentLength_append, Option.map_some, List.take_left, List.drop_left]
  rw [gapOf, comment]
  simp only [List.append_assoc, List.singleton_append]

/-- At more depth than there are characters, a gap is read the same. -/
theorem gapOf_deeper (enough : text.length < fuel) (deeper : fuel ≤ more) :
    gapOf markup fuel text = gapOf markup more text := by
  induction deeper with
  | refl => rfl
  | step deeper inductionHypothesis =>
      exact inductionHypothesis.trans (gapOf_stable (Nat.lt_of_lt_of_le enough deeper))

/-- What follows a comment is shorter. -/
theorem IsComment.length_lt (isComment : IsComment letters next) (front : Text) :
    next.length < (front ++ (letters ++ next)).length := by
  obtain ⟨rest, rfl⟩ := List.head?_eq_some_iff.mp isComment.head?
  simp only [List.length_append, List.length_cons]
  omega

namespace Leads

variable {other : Text}

theorem textOfAll_append (leads : Leads trees rest text) : textOfAll trees ++ rest = text := by
  induction leads with
  | blanks => rw [textOfAll_blankTrees]
  | comment _ _ _ inductionHypothesis =>
      rw [Tree.textOfAll_append, textOfAll_blankTrees, textOfAll_cons, text_leaf, List.append_assoc,
        List.append_assoc, inductionHypothesis]

/-- Nothing blank is left. -/
theorem stops (leads : Leads trees rest text) :
    ∀ letter, rest.head? = some letter → isBlank letter = false := by
  induction leads with
  | blanks _ stops => exact stops
  | comment _ _ _ inductionHypothesis => exact inductionHypothesis

theorem isPlain (leads : Leads trees rest text) :
    ∀ tree ∈ trees, ∃ kind letters, tree = .leaf none kind letters ∧ kind ∈ [.blank, .comment] := by
  have blanks : ∀ front : Text, ∀ tree ∈ blankTrees front,
      ∃ kind letters, tree = .leaf none kind letters ∧ kind ∈ [Kind.blank, Kind.comment] := by
    intro front tree member
    rw [blankTrees] at member
    split at member
    · cases member
    · exact ⟨.blank, front, List.mem_singleton.mp member, by decide⟩
  induction leads with
  | blanks => exact blanks _
  | @comment _ letters _ _ _ _ _ _ inductionHypothesis =>
      refine List.forall_mem_append.mpr ⟨blanks _, List.forall_mem_cons.mpr ⟨?_, inductionHypothesis⟩⟩
      exact ⟨.comment, letters, rfl, by decide⟩

/-- A gap begins with what leads. -/
theorem gapOf_eq (leads : Leads trees rest text) (enough : text.length < fuel) :
    gapOf markup fuel text =
      (trees ++ (gapOf markup fuel rest).1, (gapOf markup fuel rest).2) := by
  induction leads generalizing fuel with
  | @blanks front rest blanks stops =>
      obtain ⟨fuel, rfl⟩ : ∃ less, fuel = less + 1 := Nat.exists_eq_succ_of_ne_zero (by omega)
      rw [gapOf, gapOf, commentOf, commentOf, blanksOf_append blanks stops, blanksOf_eq_nil stops]
      cases comment : commentLength markup rest <;> simp [comment]
  | @comment front letters next rest trees blanks isComment behind inductionHypothesis =>
      obtain ⟨fuel, rfl⟩ : ∃ less, fuel = less + 1 := Nat.exists_eq_succ_of_ne_zero (by omega)
      have shorter := isComment.length_lt front
      have restShorter := congrArg List.length behind.textOfAll_append
      rw [List.length_append] at restShorter
      have deeper : gapOf markup fuel rest = gapOf markup (fuel + 1) rest :=
        gapOf_deeper (by omega) (Nat.le_succ fuel)
      rw [gapOf_comment blanks isComment, inductionHypothesis (by omega), deeper]
      simp only [List.append_assoc, List.cons_append]

/-- Every text has something that leads, perhaps nothing, and then no other comment than one of markup. -/
theorem exists_leads (text : Text) :
    ∃ trees rest, Leads trees rest text ∧
      ∀ length, commentLength true rest ≠ some (.comment, length) := by
  obtain ⟨front, behind, rfl, blanks, stops⟩ := exists_run isBlank text
  by_cases comment : ∃ length, commentLength true behind = some (.comment, length)
  · obtain ⟨length, found⟩ := comment
    obtain ⟨letters, next, rfl, isComment, _⟩ := exists_isComment found
    have shorter := isComment.length_lt front
    obtain ⟨trees, rest, leads, plain⟩ := exists_leads next
    exact ⟨_, rest, .comment blanks isComment leads, plain⟩
  · exact ⟨_, behind, .blanks blanks stops, not_exists.mp comment⟩
termination_by text.length

/-- Nothing leads a text only if nothing has been passed. -/
theorem rest_eq (leads : Leads trees rest text) (empty : textOfAll trees = []) : rest = text := by
  have whole := leads.textOfAll_append
  rwa [empty, List.nil_append] at whole

/-- A comment ends in front of another text as it did in front of what leads, unless it was the last of its
text and goes on. -/
theorem isComment_replace (behind : Leads trees rest next) (isComment : IsComment letters next)
    (ends : rest ≠ [] ∨ (letters ++ next).getLast? = some '\n') :
    IsComment letters (textOfAll trees ++ other) := by
  cases isComment with
  | block closes => exact .block closes
  | @line body _ inside lineStops =>
      refine .line inside fun letter isHead => ?_
      by_cases passed : textOfAll trees = []
      · obtain rfl := behind.rest_eq passed
        cases rest with
        | cons first rest =>
            have blank := isBlank_of_endsLine (lineStops first rfl)
            rw [behind.stops first rfl] at blank
            cases blank
        | nil =>
            have last : ('/' :: '/' :: body).getLast? = some '\n' := by simpa using ends
            have member := List.mem_of_getLast? last
            simp only [List.mem_cons, Char.reduceEq, false_or] at member
            exact absurd (inside _ member) (by decide)
      · refine lineStops letter ?_
        obtain ⟨first, others, filled⟩ := List.exists_cons_of_ne_nil passed
        rw [← behind.textOfAll_append, filled]
        rwa [filled] at isHead

/-- White space and comments lead another text as they did the first. If they were all of the first, they
must not end in a comment that goes on. -/
theorem replace (leads : Leads trees rest text)
    (ends : rest ≠ [] ∨ text = [] ∨ text.getLast? = some '\n')
    (otherStops : ∀ letter, other.head? = some letter → isBlank letter = false) :
    Leads trees other (textOfAll trees ++ other) := by
  induction leads with
  | blanks blanks =>
      rw [textOfAll_blankTrees]
      exact .blanks blanks otherStops
  | @comment front letters next rest trees blanks isComment behind inductionHypothesis =>
      obtain ⟨body, begins⟩ := List.head?_eq_some_iff.mp isComment.head?
      have commentEnds : rest ≠ [] ∨ (letters ++ next).getLast? = some '\n' := by
        rcases ends with some | empty | last
        · exact .inl some
        · simp [begins] at empty
        · rw [List.getLast?_append_of_ne_nil _ (by simp [begins])] at last
          exact .inr last
      have nextEnds : rest ≠ [] ∨ next = [] ∨ next.getLast? = some '\n' := by
        refine commentEnds.imp_right fun last => ?_
        by_cases empty : next = []
        · exact .inl empty
        · rw [List.getLast?_append_of_ne_nil _ empty] at last
          exact .inr last
      have joined : textOfAll (blankTrees front ++ .leaf none .comment letters :: trees) ++ other =
          front ++ (letters ++ (textOfAll trees ++ other)) := by
        rw [Tree.textOfAll_append, textOfAll_blankTrees, textOfAll_cons, text_leaf]
        simp only [List.append_assoc]
      rw [joined]
      exact .comment blanks (behind.isComment_replace isComment commentEnds)
        (inductionHypothesis nextEnds)

/-- If they were all of the text, they lead another text behind a new line. -/
theorem replace_newline (leads : Leads trees rest text) (all : rest = [])
    (otherStops : ∀ letter, other.head? = some letter → isBlank letter = false) :
    ∃ others, Leads others other (text ++ '\n' :: other) ∧
      textOfAll others = text ++ ['\n'] := by
  induction leads with
  | @blanks front rest blanks stops =>
      obtain rfl := all
      have longer : ∀ letter ∈ front ++ ['\n'], isBlank letter = true :=
        List.forall_mem_append.mpr ⟨blanks, List.forall_mem_singleton.mpr (by decide)⟩
      refine ⟨blankTrees (front ++ ['\n']), ?_, ?_⟩
      · have joined : front ++ [] ++ '\n' :: other = front ++ ['\n'] ++ other := by simp
        rw [joined]
        exact .blanks longer otherStops
      · rw [textOfAll_blankTrees, List.append_nil]
  | @comment front letters next rest trees blanks isComment behind inductionHypothesis =>
      obtain ⟨others, leads, same⟩ := inductionHypothesis all
      have isComment : IsComment letters (next ++ '\n' :: other) := by
        cases isComment with
        | block closes => exact .block closes
        | line inside lineStops =>
            refine .line inside fun letter isHead => ?_
            cases next with
            | nil =>
                cases isHead
                decide
            | cons => exact lineStops letter isHead
      refine ⟨blankTrees front ++ .leaf none .comment letters :: others, ?_, ?_⟩
      · rw [List.append_assoc, List.append_assoc]
        exact .comment blanks isComment leads
      · rw [Tree.textOfAll_append, textOfAll_blankTrees, textOfAll_cons, text_leaf, same]
        simp only [List.append_assoc]

end Leads

/-! ### What a gap ends at -/

/-- True if no white space and no comment begins a text, not even a comment of markup. -/
structure IsSolid (text : Text) : Prop where
  stops : ∀ letter, text.head? = some letter → isBlank letter = false
  noComment : commentLength true text = none

/-- A letter that is no blank and begins no comment. -/
theorem isSolid_cons {letter : Char} (notBlank : isBlank letter = false)
    (other : letter ∉ ['/', '<', '-']) : IsSolid (letter :: rest) := by
  refine ⟨fun first same => Option.some.inj same ▸ notBlank, ?_⟩
  simp only [List.mem_cons, List.not_mem_nil, or_false, not_or] at other
  unfold commentLength
  split
  next same => exact absurd (List.cons.inj same).1 other.1
  next same => exact absurd (List.cons.inj same).1 other.1
  next same => exact absurd (List.cons.inj same).1 other.2.1
  next same => exact absurd (List.cons.inj same).1 other.2.2
  next => rfl

theorem commentLength_false (none : commentLength true text = none) :
    commentLength false text = .none := by
  revert none
  unfold commentLength
  split <;> simp

/-- There is no gap in front of a token. -/
theorem IsSolid.gapOf (solid : IsSolid text) (markup : Bool) (fuel : Nat) :
    gapOf markup fuel text = ([], text) := by
  have noComment : commentLength markup text = none := by
    cases markup with
    | true => exact solid.noComment
    | false => exact commentLength_false solid.noComment
  cases fuel with
  | zero => rfl
  | succ fuel =>
      rw [Script.gapOf, commentOf, blanksOf_eq_nil solid.stops]
      simp only [noComment, Option.map_none]

/-- A gap ends at a token. -/
theorem isSolid_gapOf (enough : text.length < fuel) : IsSolid (gapOf true fuel text).2 := by
  induction fuel generalizing text with
  | zero => exact absurd enough (Nat.not_lt_zero _)
  | succ fuel inductionHypothesis =>
      rw [gapOf]
      cases comment : commentOf true text with
      | some found => exact inductionHypothesis (Nat.lt_of_lt_of_le (commentOf_shortens comment) (by omega))
      | none =>
          obtain ⟨front, rest, rfl, blanks, stops⟩ := exists_run isBlank text
          rw [commentOf, blanksOf_append blanks stops, Option.map_eq_none_iff] at comment
          rw [blanksOf_append blanks stops]
          exact ⟨stops, comment⟩

theorem commentLength_kind {kind : Kind} (found : commentLength markup text = some (kind, length)) :
    kind = .comment ∨ kind = .htmlComment := by
  unfold commentLength at found
  split at found
  next =>
    cases found
    exact .inl rfl
  next =>
    obtain ⟨tail, _, same⟩ := Option.map_eq_some_iff.mp found
    cases same
    exact .inl rfl
  next =>
    split at found <;> cases found
    exact .inr rfl
  next =>
    split at found <;> cases found
    exact .inr rfl
  next => cases found

/-- What is left of a gap behind all that leads begins with a comment of markup, if there is any. -/
theorem head?_gapOf (stops : ∀ letter, text.head? = some letter → isBlank letter = false)
    (plain : ∀ length, commentLength true text ≠ some (.comment, length)) {tree : Tree}
    (first : (gapOf true fuel text).1.head? = some tree) : tree.kind = .htmlComment := by
  cases fuel with
  | zero => cases first
  | succ fuel =>
      rw [gapOf, commentOf, blanksOf_eq_nil stops] at first
      simp only at first
      cases comment : commentLength true text with
      | none =>
          rw [comment] at first
          cases first
      | some found =>
          rw [comment] at first
          cases first
          rcases commentLength_kind comment with isPlain | isMarkup
          · exact absurd (comment.trans (congrArg (fun kind => some (kind, found.2)) isPlain))
              (plain found.2)
          · exact isMarkup

end ImportMeter.Script
