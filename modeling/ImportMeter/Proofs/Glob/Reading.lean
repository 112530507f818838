/-
This file says how the reading of a pattern goes on from piece to piece. A piece that can be read by
itself is read alike between slashes, so a pattern spelled by pieces is made of theirs.
-/
import Mathlib.Data.List.Forall2
import Mathlib.Data.List.TakeWhile
import ImportMeter.Glob.Expand
import ImportMeter.Proofs.FileTree.Lookup

namespace ImportMeter.Glob

variable {text piece behind rest : Text} {pattern result : Pattern} {tokens own : List Token} {token : Token}
  {before outer : Option Char} {fuel position length : Nat}

theorem readFrom_nil : readFrom fuel position before tokens [] = .ok tokens.reverse := by
  cases fuel <;> rfl

/-! ### One token -/

/-- The token that a text begins with and how many letters it takes up, two stars apart. -/
def firstToken? : Text → Option (Token × Nat)
  | [] => none
  | letter :: rest =>
    if letter = '?' then some (.anyLetter, 1)
    else if letter = '*' then if rest.head? = some '*' then none else some (.anyRun, 1)
    else if letter = '[' then (readBracket? rest).map fun found => (found.1, found.2 + 1)
    else some (.letter letter, 1)

/-- A bracket is read as a token for letters of a list. -/
theorem readBracket?_token (closed : readBracket? rest = some (token, length)) :
    ∃ specifiers, token = .oneOf specifiers ∨ token = .noneOf specifiers := by
  rw [readBracket?.eq_def] at closed
  split at closed
  · dsimp only at closed
    split at closed
    · cases closed
      exact ⟨_, .inr rfl⟩
    · cases closed
  · dsimp only at closed
    split at closed
    · cases closed
      exact ⟨_, .inl rfl⟩
    · cases closed
  · cases closed

/-- A token is read whatever was read before. Behind it, a slash can be seen only if it is that slash. -/
theorem readFrom_of_firstToken? (first : firstToken? text = some (token, length)) :
    token ≠ .anyDirectories ∧ ∃ last, (last = '/' ↔ token = .letter '/') ∧
      ∀ fuel position before tokens, readFrom (fuel + 1) position before tokens text =
        readFrom fuel (position + length) (some last) (token :: tokens) (text.drop length) := by
  cases text with
  | nil => cases first
  | cons letter rest =>
      rw [firstToken?] at first
      split at first
      next isAny =>
        cases first
        refine ⟨nofun, '?', by simp, fun fuel position before tokens => ?_⟩
        rw [readFrom, if_pos isAny]
        rfl
      next notAny =>
        split at first
        next isStar =>
          split at first
          next => cases first
          next single =>
            cases first
            have none : rest.takeWhile (· = '*') = [] ∧ rest.dropWhile (· = '*') = rest := by
              cases rest with
              | nil => exact ⟨rfl, rfl⟩
              | cons next rest =>
                  have other : next ≠ '*' := fun same => single (congrArg some same)
                  exact ⟨List.takeWhile_cons_of_neg (by simp [other]),
                    List.dropWhile_cons_of_neg (by simp [other])⟩
            refine ⟨nofun, '*', by simp, fun fuel position before tokens => ?_⟩
            rw [readFrom, if_neg notAny, if_pos isStar]
            simp only [none.1, none.2]
            rfl
        next notStar =>
          split at first
          next isBracket =>
            obtain ⟨⟨token, length⟩, closed, same⟩ := Option.map_eq_some_iff.mp first
            cases same
            obtain ⟨specifiers, isList⟩ := readBracket?_token closed
            refine ⟨?_, ']', ?_, fun fuel position before tokens => ?_⟩
            · rcases isList with rfl | rfl <;> exact nofun
            · rcases isList with rfl | rfl <;> simp
            · rw [readFrom, if_neg notAny, if_neg notStar, if_pos isBracket, closed]
              rfl
          next notBracket =>
            cases first
            refine ⟨nofun, letter, by simp, fun fuel position before tokens => ?_⟩
            rw [readFrom, if_neg notAny, if_neg notStar, if_neg notBracket]
            rfl

/-- True for a text that is over or goes on with a slash. -/
def IsBehindPiece (behind : Text) : Prop := ∀ letter ∈ behind.head?, letter = '/'

theorem isBehindPiece_nil : IsBehindPiece [] := nofun

/-- Where a text can be read and does not begin with a token, it is over or begins with two stars, which
have to fill a piece. -/
theorem stars_of_readFrom (none : firstToken? text = none)
    (isRead : readFrom (fuel + 1) position before tokens text = .ok result) :
    text = [] ∨ ∃ behind, text = '*' :: '*' :: behind ∧ IsBehindPiece behind ∧
      (before = .none ∨ before = some '/') := by
  cases text with
  | nil => exact .inl rfl
  | cons letter rest =>
      right
      rw [firstToken?] at none
      rw [readFrom] at isRead
      split at none
      next => cases none
      next notAny =>
        rw [if_neg notAny] at isRead
        split at none
        next isStar =>
          split at none
          next double =>
            obtain ⟨behind, rfl⟩ : ∃ behind, rest = '*' :: behind := by
              cases rest with
              | nil => cases double
              | cons next behind => exact ⟨behind, by rw [Option.some.inj double]⟩
            rw [if_pos isStar] at isRead
            simp only [List.takeWhile_cons_of_pos, List.dropWhile_cons_of_pos, decide_true, List.length_cons,
              Nat.add_eq_right, Nat.add_one_ne_zero, if_false] at isRead
            split at isRead
            next => cases isRead
            next two =>
              have noMore : behind.takeWhile (· = '*') = [] := List.length_eq_zero_iff.mp (by omega)
              have same : behind.dropWhile (· = '*') = behind := by
                have whole := List.takeWhile_append_dropWhile (p := (· = '*')) (l := behind)
                rwa [noMore] at whole
              rw [same] at isRead
              split at isRead
              next => cases isRead
              next starts =>
                have starts : before = .none ∨ before = some '/' := by
                  by_contra other
                  rw [not_or] at other
                  exact starts (by simp [other.1, other.2])
                refine ⟨behind, by rw [isStar], ?_, starts⟩
                split at isRead
                next => exact nofun
                next => exact fun letter isFirst => (Option.some.inj isFirst).symm
                next => cases isRead
          next => cases none
        next notStar =>
          rw [if_neg notStar] at isRead
          split at none
          next isBracket =>
            rw [if_pos isBracket, Option.map_eq_none_iff.mp none] at isRead
            cases isRead
          next => cases none

/-- Two stars are read as a token for directories if they fill the last piece. -/
theorem readFrom_stars (starts : before = none ∨ before = some '/') :
    readFrom (fuel + 1) position before tokens ['*', '*'] = .ok (addDirectories tokens).reverse := by
  rcases starts with rfl | rfl <;> rfl

/-- Two stars that fill a piece take up the slash behind them. -/
theorem readFrom_stars_slash (starts : before = none ∨ before = some '/') (rest : Text) :
    readFrom (fuel + 1) position before tokens ('*' :: '*' :: '/' :: rest) =
      readFrom fuel (position + 3) (some '/') (addDirectories tokens) rest := by
  rcases starts with rfl | rfl <;> rfl

/-! ### Letters -/

/-- True for the letters that may stand for others. -/
def isWild (letter : Char) : Bool := letter = '?' || letter = '*' || letter = '['

theorem forall_isWild_eq_false {letters : Text} (none : letters.any isWild = false) :
    ∀ letter ∈ letters, isWild letter = false :=
  fun letter member => eq_false_of_ne_true fun wild => List.any_eq_false.mp none letter member wild

/-- Letters that stand for themselves are read as they are. -/
theorem readFrom_letters {letters : Text} (plain : ∀ letter ∈ letters, isWild letter = false)
    (fuel position : Nat) (before : Option Char) (tokens : List Token) (text : Text) :
    readFrom (fuel + letters.length) position before tokens (letters ++ text) =
      readFrom fuel (position + letters.length) (letters.getLast?.or before)
        ((letters.map Token.letter).reverse ++ tokens) text := by
  induction letters generalizing position before tokens with
  | nil => rfl
  | cons letter letters inductionHypothesis =>
      obtain ⟨isPlain, plain⟩ := List.forall_mem_cons.mp plain
      simp only [isWild, Bool.or_eq_false_iff, decide_eq_false_iff_not] at isPlain
      have last : (letter :: letters).getLast?.or before = letters.getLast?.or (some letter) := by
        cases letters with
        | nil => rfl
        | cons next letters =>
            rw [List.getLast?_cons_cons, List.getLast?_eq_some_getLast (List.cons_ne_nil _ _)]
            rfl
      rw [List.length_cons, ← Nat.add_assoc, List.cons_append, readFrom, if_neg isPlain.1.1,
        if_neg isPlain.1.2, if_neg isPlain.2, inductionHypothesis plain, last, List.map_cons, List.reverse_cons,
        List.append_assoc, List.singleton_append, Nat.add_assoc, Nat.add_comm 1]

theorem read_letters {letters : Text} (plain : ∀ letter ∈ letters, isWild letter = false) :
    read letters = .ok (letters.map Token.letter) := by
  have whole := readFrom_letters plain 1 0 none [] []
  rw [List.append_nil, List.append_nil, readFrom_nil, List.reverse_reverse, Nat.add_comm] at whole
  exact whole

/-! ### One piece -/

theorem takeWhile_append_of_lt {holds : Char → Bool}
    (short : (text.takeWhile holds).length < text.length) (behind : Text) :
    (text ++ behind).takeWhile holds = text.takeWhile holds := by
  rw [List.takeWhile_append, if_neg (Nat.ne_of_lt short)]

/-- A bracket that does not begin with an exclamation mark lists what it stands for. -/
theorem readBracket?_cons {first : Char} (notNegated : first ≠ '!') (others : Text) :
    readBracket? (first :: others) =
      if (others.takeWhile (· ≠ ']')).length < others.length then
        some (.oneOf (specifiersOf (first :: others.takeWhile (· ≠ ']'))),
          (others.takeWhile (· ≠ ']')).length + 2)
      else none := by
  rw [readBracket?.eq_def]
  split
  next same => cases same; exact absurd rfl notNegated
  next same =>
    cases same
    simp [notNegated]
  next same => cases same

/-- A bracket that is closed is read alike whatever follows. -/
theorem readBracket?_append (closed : readBracket? text = some (token, length)) (behind : Text) :
    readBracket? (text ++ behind) = some (token, length) ∧ length ≤ text.length := by
  have longer : ∀ others : Text, (others.takeWhile (· ≠ ']')).length < others.length →
      ((others ++ behind).takeWhile (· ≠ ']')).length < (others ++ behind).length := by
    intro others short
    rw [takeWhile_append_of_lt short, List.length_append]
    omega
  rcases text with _ | ⟨first, others⟩
  · cases closed
  by_cases negated : first = '!'
  · subst negated
    rcases others with _ | ⟨first, others⟩
    · cases closed
    rw [readBracket?] at closed
    split at closed
    next short =>
      cases closed
      rw [List.cons_append, List.cons_append, readBracket?, if_pos (longer others short),
        takeWhile_append_of_lt short]
      exact ⟨rfl, by simp only [List.length_cons]; omega⟩
    next => cases closed
  · rw [readBracket?_cons negated] at closed
    split at closed
    next short =>
      cases closed
      rw [List.cons_append, readBracket?_cons negated, if_pos (longer others short),
        takeWhile_append_of_lt short]
      exact ⟨rfl, by simp only [List.length_cons]; omega⟩
    next => cases closed

/-- A token of a piece is read alike whatever follows the piece. -/
theorem firstToken?_append (first : firstToken? piece = some (token, length))
    (isBehind : IsBehindPiece behind) :
    firstToken? (piece ++ behind) = some (token, length) ∧ 0 < length ∧ length ≤ piece.length := by
  cases piece with
  | nil => cases first
  | cons letter piece =>
      have one : 0 < 1 ∧ 1 ≤ (letter :: piece).length := ⟨Nat.one_pos, Nat.succ_pos _⟩
      rw [firstToken?] at first
      rw [List.cons_append, firstToken?]
      split at first
      next isAny =>
        cases first
        exact ⟨if_pos isAny, one⟩
      next notAny =>
        rw [if_neg notAny]
        split at first
        next isStar =>
          rw [if_pos isStar]
          split at first
          next => cases first
          next single =>
            cases first
            refine ⟨if_neg ?_, one⟩
            cases piece with
            | nil => exact fun star => absurd (isBehind '*' star) (by decide)
            | cons next piece => exact single
        next notStar =>
          rw [if_neg notStar]
          split at first
          next isBracket =>
            obtain ⟨⟨token, length⟩, closed, same⟩ := Option.map_eq_some_iff.mp first
            cases same
            obtain ⟨closed, inside⟩ := readBracket?_append closed behind
            rw [if_pos isBracket, closed]
            exact ⟨rfl, Nat.succ_pos _, Nat.succ_le_succ inside⟩
          next notBracket =>
            cases first
            exact ⟨if_neg notBracket, one⟩

theorem head?_of_firstToken? {letter : Char} (first : firstToken? text = some (.letter letter, length)) :
    text.head? = some letter := by
  cases text with
  | nil => cases first
  | cons other text =>
      rw [firstToken?] at first
      split_ifs at first
      · cases first
      · cases first
      · obtain ⟨_, closed, same⟩ := Option.map_eq_some_iff.mp first
        obtain ⟨specifiers, isList⟩ := readBracket?_token closed
        rcases isList with isOne | isNone <;> simp_all
      · cases first
        rfl

/-- True for a pattern that stands for single names: it has no slash, and no two stars. -/
def IsNamePattern (pattern : Pattern) : Prop :=
  ∀ token ∈ pattern, token ≠ .letter '/' ∧ token ≠ .anyDirectories

/-- A piece is read alike between slashes, wherever it stands. Only two stars look at what is around
them. -/
theorem readFrom_piece (slashless : '/' ∉ piece) (notSlash : before ≠ some '/')
    (notStars : before = none → piece ≠ ['*', '*'])
    (isRead : readFrom fuel position before own piece = .ok result) (enough : piece.length < fuel) :
    ∃ further, result = own.reverse ++ further ∧ (piece ≠ [] → further ≠ []) ∧ IsNamePattern further ∧
      ∀ behind, IsBehindPiece behind → ∀ fuel position outer tokens,
        piece.length + behind.length < fuel → ∃ fuelLeft positionLeft last, behind.length < fuelLeft ∧
          readFrom fuel position outer tokens (piece ++ behind) =
            readFrom fuelLeft positionLeft last (further.reverse ++ tokens) behind := by
  induction fuel generalizing piece before own position with
  | zero => omega
  | succ fuel inductionHypothesis =>
      cases first : firstToken? piece with
      | none =>
          rcases stars_of_readFrom first isRead with rfl | ⟨left, rfl, isBehindStars, starts⟩
          · rw [readFrom_nil] at isRead
            cases isRead
            refine ⟨[], (List.append_nil _).symm, absurd rfl, nofun,
              fun behind _ fuel position outer tokens enough => ?_⟩
            exact ⟨fuel, position, outer, by simpa using enough, rfl⟩
          · -- Without a slash behind them, the stars are the whole piece.
            obtain rfl : before = .none := starts.resolve_right notSlash
            obtain rfl : left = [] := by
              cases left with
              | nil => rfl
              | cons letter left =>
                  obtain rfl := isBehindStars letter rfl
                  simp at slashless
            exact absurd rfl (notStars rfl)
      | some found =>
          obtain ⟨token, length⟩ := found
          obtain ⟨notDirectories, last, isSlash, reads⟩ := readFrom_of_firstToken? first
          have notLetter : token ≠ .letter '/' := by
            rintro rfl
            exact slashless (List.mem_of_head? (head?_of_firstToken? first))
          obtain ⟨_, filled, inside⟩ := firstToken?_append first isBehindPiece_nil
          rw [reads] at isRead
          obtain ⟨further, same, _, isName, onward⟩ := inductionHypothesis
            (fun member => slashless (List.mem_of_mem_drop member))
            (fun isLast => notLetter (isSlash.mp (Option.some.inj isLast))) nofun isRead
            (by rw [List.length_drop]; omega)
          refine ⟨token :: further, ?_, fun _ => List.cons_ne_nil _ _,
            List.forall_mem_cons.mpr ⟨⟨notLetter, notDirectories⟩, isName⟩,
            fun behind isBehind otherFuel position outer tokens enough => ?_⟩
          · rw [same, List.reverse_cons, List.append_assoc, List.singleton_append]
          · obtain ⟨otherFuel, rfl⟩ := Nat.exists_eq_add_one_of_ne_zero (Nat.ne_zero_of_lt enough)
            obtain ⟨whole, _, _⟩ := firstToken?_append first isBehind
            obtain ⟨_, otherLast, _, readsWhole⟩ := readFrom_of_firstToken? whole
            obtain ⟨fuelLeft, positionLeft, left, enoughLeft, same⟩ := onward behind isBehind otherFuel
              (position + length) (some otherLast) (token :: tokens) (by rw [List.length_drop]; omega)
            refine ⟨fuelLeft, positionLeft, left, enoughLeft, ?_⟩
            rw [readsWhole, List.drop_append_of_le_length inside, same, List.reverse_cons,
              List.append_assoc, List.singleton_append]

/-- A piece is read as two stars or as a pattern for names, which is read alike wherever it stands. -/
theorem cases_of_read (slashless : '/' ∉ piece) (isRead : read piece = .ok pattern) :
    piece = ['*', '*'] ∧ pattern = [.anyDirectories] ∨
      (piece ≠ [] → pattern ≠ []) ∧ IsNamePattern pattern ∧
        ∀ behind, IsBehindPiece behind → ∀ fuel position outer tokens, piece.length + behind.length < fuel →
          ∃ fuelLeft positionLeft last, behind.length < fuelLeft ∧
            readFrom fuel position outer tokens (piece ++ behind) =
              readFrom fuelLeft positionLeft last (pattern.reverse ++ tokens) behind := by
  by_cases stars : piece = ['*', '*']
  · subst stars
    cases isRead
    exact .inl ⟨rfl, rfl⟩
  · rw [read] at isRead
    have start : (none : Option Char) ≠ some '/' := nofun
    obtain ⟨further, same, filled, isName, onward⟩ := readFrom_piece slashless start (fun _ => stars) isRead
      (Nat.lt_succ_self _)
    obtain rfl : pattern = further := same
    exact .inr ⟨filled, isName, onward⟩

theorem isRecursive_eq_false (isName : IsNamePattern pattern) : isRecursive pattern = false := by
  refine decide_eq_false ?_
  rintro rfl
  exact (isName _ List.mem_cons_self).2 rfl

/-! ### Several pieces -/

/-- The pattern that is read from some pieces between slashes. Two stars take up the slash behind them,
and are read once if they follow each other. -/
def joined : Bool → List Pattern → Pattern
  | _, [] => []
  | behindStars, pattern :: rest =>
    if isRecursive pattern then (if behindStars then [] else pattern) ++ joined true rest
    else pattern ++ (if rest.isEmpty then [] else [.letter '/']) ++ joined false rest

variable {pieces : List Text} {patterns : List Pattern}

/-- What two stars add to the tokens of an absolute pattern. -/
theorem addDirectories_spec (begun : tokens.getLast? = some (.letter '/')) :
    (addDirectories tokens).reverse =
        tokens.reverse ++ (if tokens.head? = some .anyDirectories then [] else [.anyDirectories]) ∧
      (addDirectories tokens).head? = some .anyDirectories ∧
      (addDirectories tokens).getLast? = some (.letter '/') := by
  obtain ⟨first, others, rfl⟩ := List.exists_cons_of_ne_nil
    (fun none : tokens = [] => by rw [none] at begun; cases begun)
  have added : (Token.anyDirectories :: first :: others).getLast? = some (.letter '/') := by
    rwa [List.getLast?_cons_cons]
  rw [addDirectories]
  by_cases again : first = .anyDirectories
  · subst again
    have more : others ≠ [] := by
      rintro rfl
      cases begun
    have long : (Token.anyDirectories :: others).length > 1 :=
      Nat.succ_lt_succ (List.length_pos_iff.mpr more)
    rw [if_pos (by simp [List.length_pos_iff.mpr more])]
    exact ⟨by simp, rfl, begun⟩
  · rw [if_neg (by simp [again])]
    refine ⟨?_, rfl, added⟩
    rw [List.head?_cons, if_neg (mt Option.some.inj again), List.reverse_cons]

/-- A text spelled by pieces is read piece by piece. -/
theorem readFrom_joined
    (areRead : List.Forall₂ (fun piece pattern => read piece = .ok pattern) pieces patterns)
    (slashless : ∀ piece ∈ pieces, '/' ∉ piece) (begun : tokens.getLast? = some (.letter '/'))
    (starts : before = none ∨ before = some '/') (enough : (Text.joinWith ['/'] pieces).length < fuel) :
    readFrom fuel position before tokens (Text.joinWith ['/'] pieces) =
      .ok (tokens.reverse ++ joined (tokens.head? = some .anyDirectories) patterns) := by
  induction areRead generalizing fuel position before tokens with
  | nil =>
      rw [joined, List.append_nil]
      exact readFrom_nil
  | @cons piece pattern pieces patterns isRead areRead inductionHypothesis =>
      obtain ⟨free, othersFree⟩ := List.forall_mem_cons.mp slashless
      obtain ⟨fuel, rfl⟩ := Nat.exists_eq_add_one_of_ne_zero (Nat.ne_zero_of_lt enough)
      obtain ⟨reversed, isStars, begunAgain⟩ := addDirectories_spec begun
      have sameLength := List.Forall₂.length_eq areRead
      rcases cases_of_read free isRead with ⟨rfl, rfl⟩ | ⟨_, isName, onward⟩
      · have isStar : isRecursive [.anyDirectories] = true := rfl
        rw [joined, if_pos isStar]
        cases pieces with
        | nil =>
            obtain rfl : patterns = [] := List.length_eq_zero_iff.mp sameLength.symm
            rw [Text.joinWith, readFrom_stars starts, reversed, joined, List.append_nil]
            simp only [decide_eq_true_eq]
        | cons next pieces =>
            have split : Text.joinWith ['/'] (['*', '*'] :: next :: pieces) =
                '*' :: '*' :: '/' :: Text.joinWith ['/'] (next :: pieces) := rfl
            rw [split] at enough ⊢
            rw [readFrom_stars_slash starts, inductionHypothesis othersFree begunAgain (.inr rfl)
              (by simp only [List.length_cons] at enough; omega), reversed, isStars, List.append_assoc]
            simp only [decide_eq_true_eq, decide_true]
      · rw [joined, isRecursive_eq_false isName]
        cases pieces with
        | nil =>
            obtain rfl : patterns = [] := List.length_eq_zero_iff.mp sameLength.symm
            obtain ⟨fuelLeft, positionLeft, last, _, same⟩ := onward [] isBehindPiece_nil (fuel + 1) position
              before tokens enough
            rw [List.append_nil, readFrom_nil] at same
            rw [Text.joinWith, same]
            simp [joined]
        | cons next pieces =>
            obtain ⟨other, patterns, rfl⟩ := List.exists_cons_of_ne_nil
              (fun none : patterns = [] => by rw [none] at sameLength; cases sameLength)
            have split := Text.joinWith_cons ['/'] piece (List.cons_ne_nil next pieces)
            rw [List.append_assoc, List.singleton_append] at split
            rw [split] at enough ⊢
            obtain ⟨fuelLeft, positionLeft, last, enoughLeft, same⟩ := onward
              ('/' :: Text.joinWith ['/'] (next :: pieces))
              (fun letter isFirst => (Option.some.inj isFirst).symm) (fuel + 1) position before tokens
              (by rwa [List.length_append] at enough)
            obtain ⟨fuelLeft, rfl⟩ := Nat.exists_eq_add_one_of_ne_zero (Nat.ne_zero_of_lt enoughLeft)
            have slash : firstToken? ('/' :: Text.joinWith ['/'] (next :: pieces)) = some (.letter '/', 1) := rfl
            obtain ⟨_, behind, isSlash, reads⟩ := readFrom_of_firstToken? slash
            have begunAgain : (Token.letter '/' :: (pattern.reverse ++ tokens)).getLast? =
                some (.letter '/') := by
              rw [← List.cons_append, List.getLast?_append, begun]
              rfl
            rw [same, reads, List.drop_one, List.tail_cons, isSlash.mpr rfl,
              inductionHypothesis othersFree begunAgain (.inr rfl)
                (by rw [List.length_cons] at enoughLeft; omega)]
            simp

/-- An absolute pattern is made of the patterns of its pieces. -/
theorem read_rooted
    (areRead : List.Forall₂ (fun piece pattern => read piece = .ok pattern) pieces patterns)
    (slashless : ∀ piece ∈ pieces, '/' ∉ piece) :
    read (Path.rooted pieces).letters = .ok (.letter '/' :: joined false patterns) := by
  have slash : firstToken? (Path.rooted pieces).letters = some (.letter '/', 1) := rfl
  obtain ⟨_, behind, isSlash, reads⟩ := readFrom_of_firstToken? slash
  have rest : (Path.rooted pieces).letters.drop 1 = Text.joinWith ['/'] pieces := rfl
  have enough : (Text.joinWith ['/'] pieces).length < (Path.rooted pieces).letters.length :=
    Nat.lt_succ_self _
  rw [read, reads, isSlash.mpr rfl, rest, readFrom_joined areRead slashless rfl (.inr rfl) enough]
  rfl

end ImportMeter.Glob
