/-
This file says which texts a pattern stands for besides those that it spells: all that lies in directories of
some name, and a child that is tried in the place of all others.
-/
import ImportMeter.Proofs.Glob.Matching

namespace ImportMeter.Glob

variable {text word : Text} {pattern rest : Pattern} {token : Token} {letter : Char}

/-! ### What lies in directories of one name -/

/-- The pattern for all that lies in directories of a name. -/
def insideOf (name : Text) : Pattern :=
  .anyDirectories :: ((name ++ ['/']).map .letter ++ [.anyDirectories])

/-- A slash behind a word, which follows a slash or nothing, makes the word a piece. -/
theorem exists_behindSlashes_iff {pieces : List Text} (slashless : ∀ piece ∈ pieces, '/' ∉ piece)
    (free : '/' ∉ word) :
    (∃ start ∈ Text.joinWith ['/'] pieces :: behindSlashes (Text.joinWith ['/'] pieces),
        ∃ behind, start = word ++ '/' :: behind) ↔ word ∈ pieces.dropLast := by
  induction pieces with
  | nil => simp [Text.joinWith, behindSlashes]
  | cons piece pieces inductionHypothesis =>
      obtain ⟨first, others⟩ := List.forall_mem_cons.mp slashless
      by_cases last : pieces = []
      · subst last
        rw [Text.joinWith, behindSlashes_of_slashless first]
        simp only [List.mem_singleton, exists_eq_left, List.dropLast_singleton, List.not_mem_nil, iff_false]
        rintro ⟨behind, rfl⟩
        exact first (List.mem_append_right _ List.mem_cons_self)
      · rw [joinWith_cons_slash piece last, behindSlashes_append first, List.dropLast_cons_of_ne_nil last,
          List.mem_cons, ← inductionHypothesis others, List.exists_mem_cons_iff]
        refine or_congr_left ?_
        constructor
        · rintro ⟨behind, same⟩
          exact (append_slash_inj first free same).1.symm
        · rintro rfl
          exact ⟨_, rfl⟩

/-- It stands for a text with a directory of that name and something behind it. -/
theorem matchesText_insideOf (free : '/' ∉ word) :
    matchesText (insideOf word) text = true ↔ word ∈ (Text.splitOn '/' text).dropLast := by
  have all : ∀ text : Text, matchesText [.anyDirectories] text = true :=
    fun text => matchesText_anyDirectories.mpr (.inr rfl)
  have joined := Text.joinWith_splitOn '/' text
  rw [← exists_behindSlashes_iff (fun _ => Text.notMem_of_mem_splitOn) free, joined, insideOf,
    matchesText_anyDirectories]
  simp only [matchesText_letters_append_iff, all, and_true, List.append_assoc, List.singleton_append]
  refine or_iff_left ?_
  rintro ⟨behind, none⟩
  exact List.append_ne_nil_of_right_ne_nil word (List.cons_ne_nil _ _) none.symm

/-! ### A child in the place of all others -/

/-- True for a token that stands for runs of letters. -/
def Token.isWide (token : Token) : Bool := token = .anyRun || token = .anyDirectories

theorem Token.isSingle_of_isWide (notWide : token.isWide = false) : token.isSingle = true := by
  cases token <;> first | rfl | cases notWide

/-- True unless the pattern ends, wide tokens apart, in a token that stands for a letter behind one that
can end in a slash. -/
def endsBefore (letter : Char) (pattern : Pattern) : Bool :=
  match pattern.reverse.dropWhile Token.isWide with
  | last :: before :: _ => !(last.accepts letter && (before.isWide || before.accepts '/'))
  | _ => true

theorem isWide_of_matchesText_nil (isMatch : matchesText pattern [] = true) :
    ∀ token ∈ pattern, token.isWide = true := by
  induction pattern with
  | nil => exact List.forall_mem_nil _
  | cons token rest inductionHypothesis =>
      cases wide : token.isWide with
      | false =>
          obtain ⟨_, _, none, _⟩ := (matchesText_single (Token.isSingle_of_isWide wide)).mp isMatch
          cases none
      | true =>
          refine List.forall_mem_cons.mpr ⟨wide, inductionHypothesis ?_⟩
          cases token with
          | anyRun =>
              obtain ⟨front, behind, none, isMatch⟩ := matchesText_anyRun.mp isMatch
              obtain ⟨rfl, rfl⟩ := List.append_eq_nil_iff.mp none.symm
              exact isMatch
          | anyDirectories =>
              rcases matchesText_anyDirectories.mp isMatch with ⟨behind, member, isMatch⟩ | isMatch
              · obtain rfl : behind = [] := List.mem_singleton.mp member
                exact isMatch
              · exact isMatch
          | letter | anyLetter | oneOf | noneOf => cases wide

/-- What is behind the slashes of a text that goes on with a letter goes on with it too. -/
theorem mem_behindSlashes_concat {behind : Text} (member : behind ∈ behindSlashes (text ++ [letter])) :
    behind = [] ∨ ∃ front ∈ behindSlashes text, behind = front ++ [letter] := by
  induction text with
  | nil =>
      rw [List.nil_append, behindSlashes] at member
      split at member
      · exact .inl (List.mem_singleton.mp member)
      · cases member
  | cons first text inductionHypothesis =>
      rw [List.cons_append, behindSlashes] at member
      rw [behindSlashes]
      split at member
      · rw [if_pos ‹_›]
        rcases List.mem_cons.mp member with rfl | member
        · exact .inr ⟨text, List.mem_cons_self, rfl⟩
        · rcases inductionHypothesis member with none | ⟨front, inside, same⟩
          · exact .inl none
          · exact .inr ⟨front, List.mem_cons_of_mem _ inside, same⟩
      · rw [if_neg ‹_›]
        exact inductionHypothesis member

/-- The ways to stand for a text that goes on with a letter: wide tokens at the end take the letter, or a
token that stands for it, with nothing but wide ones behind it. -/
inductive TakesLetter (pattern : Pattern) (text : Text) (letter : Char) : Prop
  | wide (front : Pattern) (last : Token) (same : pattern = front ++ [last]) (isWide : last.isWide = true)
      (isMatch : matchesText pattern text = true)
  | single (front : Pattern) (token : Token) (behind : Pattern) (same : pattern = front ++ token :: behind)
      (accepts : token.accepts letter = true) (areWide : ∀ token ∈ behind, token.isWide = true)
      (isMatch : matchesText front text = true)

/-- Where all tokens are wide, the last one is. -/
theorem TakesLetter.of_allWide (areWide : ∀ other ∈ token :: rest, other.isWide = true)
    (isMatch : matchesText (token :: rest) text = true) : TakesLetter (token :: rest) text letter := by
  obtain ⟨front, last, same⟩ := (List.eq_nil_or_concat' (token :: rest)).resolve_left (List.cons_ne_nil _ _)
  exact .wide front last same (areWide last (same ▸ List.mem_append_right _ List.mem_cons_self)) isMatch

/-- A token in front that is done with a front of the text changes nothing. -/
theorem TakesLetter.cons {left : Text} (takes : TakesLetter rest left letter)
    (first : ∀ pattern, matchesText pattern left = true → matchesText (token :: pattern) text = true) :
    TakesLetter (token :: rest) text letter := by
  cases takes with
  | wide front last same isWide isMatch =>
      exact .wide (token :: front) last (congrArg _ same) isWide (first rest isMatch)
  | single front last behind same accepts areWide isMatch =>
      exact .single (token :: front) last behind (congrArg _ same) accepts areWide (first front isMatch)

theorem takesLetter (isMatch : matchesText pattern (text ++ [letter]) = true) :
    TakesLetter pattern text letter := by
  induction pattern generalizing text with
  | nil => simp [matchesText] at isMatch
  | cons token rest inductionHypothesis =>
      cases wide : token.isWide with
      | false =>
          have single := Token.isSingle_of_isWide wide
          obtain ⟨first, left, same, accepts, onward⟩ := (matchesText_single single).mp isMatch
          cases text with
          | nil =>
              obtain ⟨rfl, rfl⟩ := List.cons.inj same
              exact .single [] token rest rfl accepts (isWide_of_matchesText_nil onward) rfl
          | cons head text =>
              obtain ⟨rfl, rfl⟩ := List.cons.inj same
              exact (inductionHypothesis onward).cons fun pattern isMatch =>
                (matchesText_single single).mpr ⟨head, text, rfl, accepts, isMatch⟩
      | true =>
          have ofRest : matchesText rest [] = true → matchesText (token :: rest) text = true →
              TakesLetter (token :: rest) text letter := fun isMatch =>
            .of_allWide (List.forall_mem_cons.mpr ⟨wide, isWide_of_matchesText_nil isMatch⟩)
          cases token with
          | anyRun =>
              obtain ⟨front, behind, same, onward⟩ := matchesText_anyRun.mp isMatch
              rcases List.eq_nil_or_concat' behind with rfl | ⟨left, last, rfl⟩
              · exact ofRest onward (matchesText_anyRun.mpr ⟨text, [], (List.append_nil _).symm, onward⟩)
              · rw [← List.append_assoc] at same
                obtain ⟨rfl, lastSame⟩ := List.append_inj' same rfl
                obtain rfl := List.singleton_injective lastSame
                exact (inductionHypothesis onward).cons fun pattern isMatch =>
                  matchesText_anyRun.mpr ⟨front, left, rfl, isMatch⟩
          | anyDirectories =>
              have ends : matchesText rest [] = true → TakesLetter (.anyDirectories :: rest) text letter :=
                fun isMatch => ofRest isMatch (matchesText_anyDirectories.mpr (.inr isMatch))
              have starts : ∀ left ∈ text :: behindSlashes text, matchesText rest (left ++ [letter]) = true →
                  TakesLetter (.anyDirectories :: rest) text letter :=
                fun left member onward => (inductionHypothesis onward).cons fun pattern isMatch =>
                  matchesText_anyDirectories.mpr (.inl ⟨left, member, isMatch⟩)
              rcases matchesText_anyDirectories.mp isMatch with ⟨behind, member, onward⟩ | onward
              · rcases List.mem_cons.mp member with rfl | inside
                · exact starts text List.mem_cons_self onward
                · rcases mem_behindSlashes_concat inside with rfl | ⟨front, inFront, rfl⟩
                  · exact ends onward
                  · exact starts front (List.mem_cons_of_mem _ inFront) onward
              · exact ends onward
          | letter | anyLetter | oneOf | noneOf => cases wide

theorem TakesLetter.exists_last (takes : TakesLetter pattern text letter) :
    ∃ front last, pattern = front ++ [last] ∧ (last.isWide = true ∨ last.accepts letter = true) := by
  cases takes with
  | wide front last same isWide _ => exact ⟨front, last, same, .inl isWide⟩
  | single front token behind same accepts areWide _ =>
      rcases List.eq_nil_or_concat' behind with rfl | ⟨others, last, rfl⟩
      · exact ⟨front, token, same, .inr accepts⟩
      · refine ⟨front ++ token :: others, last, by simp [same], .inl (areWide last ?_)⟩
        exact List.mem_append_right _ List.mem_cons_self

theorem Token.isWide_of_accepts (accepts : token.accepts letter = true) : token.isWide = false := by
  cases token <;> first | rfl | cases accepts

/-- A pattern that cannot end in that letter behind a slash stands for a child of this name only if it
stands for the directory with its slash. -/
theorem matchesText_of_child (ends : endsBefore letter pattern = true)
    (isMatch : matchesText pattern (text ++ ['/', letter]) = true) :
    matchesText pattern (text ++ ['/']) = true := by
  have behindSlash : text ++ ['/', letter] = (text ++ ['/']) ++ [letter] := by simp
  rw [behindSlash] at isMatch
  cases takesLetter isMatch with
  | wide _ _ _ _ isMatch => exact isMatch
  | single front token behind same accepts areWide onward =>
      obtain ⟨others, last, rfl, isLast⟩ := (takesLetter onward).exists_last
      have kept : pattern.reverse.dropWhile Token.isWide = token :: last :: others.reverse := by
        have allWide : ∀ other ∈ behind.reverse, other.isWide = true :=
          fun other member => areWide other (List.mem_reverse.mp member)
        rw [same, List.reverse_append, List.reverse_cons, List.append_assoc,
          List.dropWhile_append_of_pos allWide, List.singleton_append,
          List.dropWhile_cons_of_neg (by simp [Token.isWide_of_accepts accepts]), List.reverse_append]
        rfl
      have flagged : (last.isWide || last.accepts '/') = true := by simpa using isLast
      rw [endsBefore, kept] at ends
      dsimp only at ends
      rw [accepts, flagged] at ends
      cases ends

end ImportMeter.Glob
