/-
This file compares two ways to match a pattern: against a whole path as a text, where a star may take
slashes, and piece by piece against the names of the path. They agree once wildcards leave slashes
alone.
-/
import ImportMeter.Proofs.Glob.Reading

namespace ImportMeter.Glob

variable {text behind name : Text} {pattern rest : Pattern} {token : Token} {patterns : List Pattern}
  {names : List Text}

/-! ### Wildcards that leave slashes alone -/

/-- What can be left of a text if a front of it without slashes is dropped. -/
def nameTails : Text → List Text
  | [] => [[]]
  | letter :: rest => (letter :: rest) :: if letter = '/' then [] else nameTails rest

/-- True if a token stands for a single letter, which is a slash only if that slash is written. -/
def Token.acceptsApart (token : Token) (letter : Char) : Bool :=
  token.accepts letter && (letter ≠ '/' || token = .letter '/')

/-- True if a pattern stands for a text and no wildcard but two stars takes a slash. -/
def matchesApart : Pattern → Text → Bool
  | [], text => text.isEmpty
  | .anyRun :: rest, text => (nameTails text).any (matchesApart rest)
  | .anyDirectories :: rest, text =>
    (text :: behindSlashes text).any (matchesApart rest) || matchesApart rest []
  | token :: rest, text =>
    match text with
    | [] => false
    | letter :: text => token.acceptsApart letter && matchesApart rest text

/-- True for a token that stands for one letter. -/
def Token.isSingle (token : Token) : Bool := token ≠ .anyRun && token ≠ .anyDirectories

theorem matchesText_single (single : token.isSingle = true) :
    matchesText (token :: rest) text = true ↔
      ∃ letter left, text = letter :: left ∧ token.accepts letter = true ∧ matchesText rest left = true := by
  have opened : matchesText (token :: rest) text = match text with
      | [] => false
      | letter :: text => token.accepts letter && matchesText rest text := by
    cases token <;> first | rfl | cases single
  rw [opened]
  cases text with
  | nil => simp
  | cons letter left => simp

theorem matchesApart_single (single : token.isSingle = true) :
    matchesApart (token :: rest) text = true ↔
      ∃ letter left, text = letter :: left ∧ token.acceptsApart letter = true ∧
        matchesApart rest left = true := by
  have opened : matchesApart (token :: rest) text = match text with
      | [] => false
      | letter :: text => token.acceptsApart letter && matchesApart rest text := by
    cases token <;> first | rfl | cases single
  rw [opened]
  cases text with
  | nil => simp
  | cons letter left => simp

theorem mem_tails_iff : behind ∈ tails text ↔ ∃ front, text = front ++ behind := by
  induction text with
  | nil => simp [tails, eq_comm]
  | cons letter text inductionHypothesis =>
      rw [tails, List.mem_cons, inductionHypothesis]
      constructor
      · rintro (rfl | ⟨front, rfl⟩)
        · exact ⟨[], rfl⟩
        · exact ⟨letter :: front, rfl⟩
      · rintro ⟨front, same⟩
        cases front with
        | nil => exact .inl same.symm
        | cons first front => exact .inr ⟨front, (List.cons.inj same).2⟩

theorem mem_nameTails_iff : behind ∈ nameTails text ↔ ∃ front, text = front ++ behind ∧ '/' ∉ front := by
  induction text with
  | nil => simp [nameTails, eq_comm]
  | cons letter text inductionHypothesis =>
      rw [nameTails, List.mem_cons]
      constructor
      · rintro (rfl | member)
        · exact ⟨[], rfl, List.not_mem_nil⟩
        · split at member
          · cases member
          next notSlash =>
            obtain ⟨front, rfl, free⟩ := inductionHypothesis.mp member
            exact ⟨letter :: front, rfl, by simp [free, Ne.symm notSlash]⟩
      · rintro ⟨front, same, free⟩
        cases front with
        | nil => exact .inl same.symm
        | cons first front =>
            obtain ⟨rfl, rfl⟩ := List.cons.inj same
            obtain ⟨notSlash, free⟩ := not_or.mp (mt List.mem_cons.mpr free)
            rw [if_neg (Ne.symm notSlash)]
            exact .inr (inductionHypothesis.mpr ⟨front, rfl, free⟩)

theorem matchesText_anyRun :
    matchesText (.anyRun :: rest) text = true ↔
      ∃ front behind, text = front ++ behind ∧ matchesText rest behind = true := by
  rw [matchesText, List.any_eq_true]
  constructor
  · rintro ⟨behind, member, isMatch⟩
    obtain ⟨front, same⟩ := mem_tails_iff.mp member
    exact ⟨front, behind, same, isMatch⟩
  · rintro ⟨front, behind, same, isMatch⟩
    exact ⟨behind, mem_tails_iff.mpr ⟨front, same⟩, isMatch⟩

theorem matchesText_anyDirectories :
    matchesText (.anyDirectories :: rest) text = true ↔
      (∃ behind ∈ text :: behindSlashes text, matchesText rest behind = true) ∨ matchesText rest [] = true := by
  rw [matchesText, Bool.or_eq_true_iff, List.any_eq_true]

/-- Plain letters take the front of a text. -/
theorem matchesText_letters_append_iff {letters : Text} :
    matchesText (letters.map .letter ++ pattern) text = true ↔
      ∃ behind, text = letters ++ behind ∧ matchesText pattern behind = true := by
  induction letters generalizing text with
  | nil => simp
  | cons letter letters inductionHypothesis =>
      rw [List.map_cons, List.cons_append, matchesText_single rfl]
      constructor
      · rintro ⟨first, left, rfl, accepts, isMatch⟩
        obtain ⟨behind, rfl, onward⟩ := inductionHypothesis.mp isMatch
        exact ⟨behind, by rw [of_decide_eq_true accepts]; rfl, onward⟩
      · rintro ⟨behind, rfl, isMatch⟩
        exact ⟨letter, letters ++ behind, rfl, decide_eq_true rfl, inductionHypothesis.mpr ⟨behind, rfl, isMatch⟩⟩

theorem matchesApart_anyRun :
    matchesApart (.anyRun :: rest) text = true ↔
      ∃ front behind, text = front ++ behind ∧ '/' ∉ front ∧ matchesApart rest behind = true := by
  rw [matchesApart, List.any_eq_true]
  constructor
  · rintro ⟨behind, member, isMatch⟩
    obtain ⟨front, same, free⟩ := mem_nameTails_iff.mp member
    exact ⟨front, behind, same, free, isMatch⟩
  · rintro ⟨front, behind, same, free, isMatch⟩
    exact ⟨behind, mem_nameTails_iff.mpr ⟨front, same, free⟩, isMatch⟩

/-- What wildcards match without slashes they match. -/
theorem matchesText_of_matchesApart (isMatch : matchesApart pattern text = true) :
    matchesText pattern text = true := by
  induction pattern generalizing text with
  | nil => exact isMatch
  | cons token rest inductionHypothesis =>
      by_cases single : token.isSingle = true
      · obtain ⟨letter, left, same, accepts, isMatch⟩ := (matchesApart_single single).mp isMatch
        exact (matchesText_single single).mpr
          ⟨letter, left, same, (Bool.and_eq_true_iff.mp accepts).1, inductionHypothesis isMatch⟩
      cases token with
      | anyRun =>
          obtain ⟨front, behind, same, _, isMatch⟩ := matchesApart_anyRun.mp isMatch
          exact matchesText_anyRun.mpr ⟨front, behind, same, inductionHypothesis isMatch⟩
      | anyDirectories =>
          rw [matchesApart, Bool.or_eq_true_iff] at isMatch
          rw [matchesText, Bool.or_eq_true_iff]
          refine isMatch.imp (fun isMatch => ?_) inductionHypothesis
          obtain ⟨behind, member, isMatch⟩ := List.any_eq_true.mp isMatch
          exact List.any_eq_true.mpr ⟨behind, member, inductionHypothesis isMatch⟩
      | letter | anyLetter | oneOf | noneOf => exact absurd rfl single

/-- A pattern for names takes a part of a text without slashes. -/
theorem matchesApart_append (isName : IsNamePattern pattern) :
    matchesApart (pattern ++ rest) text = true ↔
      ∃ name behind, text = name ++ behind ∧ '/' ∉ name ∧ matchesText pattern name = true ∧
        matchesApart rest behind = true := by
  induction pattern generalizing text with
  | nil =>
      constructor
      · exact fun isMatch => ⟨[], text, rfl, List.not_mem_nil, rfl, isMatch⟩
      · rintro ⟨name, behind, rfl, _, isEmpty, isMatch⟩
        obtain rfl := List.isEmpty_iff.mp isEmpty
        exact isMatch
  | cons token pattern inductionHypothesis =>
      obtain ⟨⟨notSlash, notDirectories⟩, areOthers⟩ := List.forall_mem_cons.mp isName
      by_cases isRun : token = .anyRun
      · subst isRun
        rw [List.cons_append, matchesApart_anyRun]
        constructor
        · rintro ⟨front, left, rfl, free, isMatch⟩
          obtain ⟨name, behind, rfl, alsoFree, isNameMatch, isMatch⟩ := (inductionHypothesis areOthers).mp isMatch
          refine ⟨front ++ name, behind, (List.append_assoc _ _ _).symm, ?_, ?_, isMatch⟩
          · exact fun member => (List.mem_append.mp member).elim free alsoFree
          · exact matchesText_anyRun.mpr ⟨front, name, rfl, isNameMatch⟩
        · rintro ⟨name, behind, rfl, free, begins, isMatch⟩
          obtain ⟨front, left, rfl, isNameMatch⟩ := matchesText_anyRun.mp begins
          refine ⟨front, left ++ behind, List.append_assoc _ _ _, fun member => free ?_, ?_⟩
          · exact List.mem_append_left _ member
          · exact (inductionHypothesis areOthers).mpr ⟨left, behind, rfl,
              fun member => free (List.mem_append_right _ member), isNameMatch, isMatch⟩
      · have single : token.isSingle = true := by simp [Token.isSingle, isRun, notDirectories]
        rw [List.cons_append, matchesApart_single single]
        constructor
        · rintro ⟨letter, left, rfl, accepts, isMatch⟩
          obtain ⟨name, behind, rfl, free, isNameMatch, isMatch⟩ := (inductionHypothesis areOthers).mp isMatch
          obtain ⟨accepts, apart⟩ := Bool.and_eq_true_iff.mp accepts
          have notSlash : letter ≠ '/' := by simpa [notSlash] using apart
          exact ⟨letter :: name, behind, rfl, by simp [free, Ne.symm notSlash],
            (matchesText_single single).mpr ⟨letter, name, rfl, accepts, isNameMatch⟩, isMatch⟩
        · rintro ⟨name, behind, rfl, free, isNameMatch, isMatch⟩
          obtain ⟨letter, left, rfl, accepts, isNameMatch⟩ := (matchesText_single single).mp isNameMatch
          obtain ⟨notSlash', free⟩ := not_or.mp (mt List.mem_cons.mpr free)
          refine ⟨letter, left ++ behind, rfl, ?_, (inductionHypothesis areOthers).mpr
            ⟨left, behind, rfl, free, isNameMatch, isMatch⟩⟩
          simp [Token.acceptsApart, accepts, Ne.symm notSlash']

/-! ### Piece by piece -/

open Path (AreEntryNames)

/-- True if some pieces stand for some names, one piece for each name; two stars stand for any names. -/
def matchesPieces : List Pattern → List Text → Bool
  | [], names => names.isEmpty
  | pattern :: rest, names =>
    if isRecursive pattern then names.tails.any (matchesPieces rest)
    else match names with
      | [] => false
      | name :: names => matchesText pattern name && matchesPieces rest names

theorem matchesPieces_recursive {patterns : List Pattern} (isStars : isRecursive pattern = true) :
    matchesPieces (pattern :: patterns) names = true ↔
      ∃ left, left <:+ names ∧ matchesPieces patterns left = true := by
  rw [matchesPieces.eq_def]
  dsimp only
  rw [if_pos isStars, List.any_eq_true]
  simp only [List.mem_tails]

theorem matchesPieces_name {patterns : List Pattern} (isName : isRecursive pattern = false) :
    matchesPieces (pattern :: patterns) names = true ↔
      ∃ name left, names = name :: left ∧ matchesText pattern name = true ∧
        matchesPieces patterns left = true := by
  cases names with
  | nil => simp [matchesPieces, isName]
  | cons name left => simp [matchesPieces, isName]

/-- True for a piece as pieces are read: two stars or some pattern for names. -/
def IsPiece (pattern : Pattern) : Prop :=
  pattern = [.anyDirectories] ∨ pattern ≠ [] ∧ IsNamePattern pattern

/-- True for pieces of which the last is not two stars. -/
def EndInName (patterns : List Pattern) : Prop := ∀ last ∈ patterns.getLast?, isRecursive last = false

theorem EndInName.of_suffix {others : List Pattern} (ends : EndInName patterns) (isSuffix : others <:+ patterns)
    (filled : others ≠ []) : EndInName others := by
  obtain ⟨front, rfl⟩ := isSuffix
  exact fun last isLast => ends last (by rwa [List.getLast?_append_of_ne_nil _ filled])

theorem EndInName.of_cons (ends : EndInName (pattern :: patterns)) (filled : patterns ≠ []) :
    EndInName patterns := ends.of_suffix (List.suffix_cons _ _) filled

/-- Pieces that end in a name stand for some name. -/
theorem matchesPieces_nil (ends : EndInName patterns) (filled : patterns ≠ []) :
    matchesPieces patterns [] = false := by
  induction patterns with
  | nil => exact absurd rfl filled
  | cons pattern patterns inductionHypothesis =>
      cases isStars : isRecursive pattern with
      | false => rw [matchesPieces, if_neg (by simp [isStars])]
      | true =>
          have more : patterns ≠ [] := by
            rintro rfl
            rw [ends pattern rfl] at isStars
            cases isStars
          refine eq_false_of_ne_true fun isMatch => ?_
          obtain ⟨left, isSuffix, isMatch⟩ := (matchesPieces_recursive isStars).mp isMatch
          rw [List.suffix_nil.mp isSuffix, inductionHypothesis (ends.of_cons more) more] at isMatch
          cases isMatch

theorem behindSlashes_of_slashless (slashless : '/' ∉ text) : behindSlashes text = [] := by
  induction text with
  | nil => rfl
  | cons letter text inductionHypothesis =>
      obtain ⟨notSlash, slashless⟩ := not_or.mp (mt List.mem_cons.mpr slashless)
      rw [behindSlashes, if_neg (Ne.symm notSlash), inductionHypothesis slashless]

theorem behindSlashes_append (slashless : '/' ∉ name) (text : Text) :
    behindSlashes (name ++ '/' :: text) = text :: behindSlashes text := by
  induction name with
  | nil => rfl
  | cons letter name inductionHypothesis =>
      obtain ⟨notSlash, slashless⟩ := not_or.mp (mt List.mem_cons.mpr slashless)
      rw [List.cons_append, behindSlashes, if_neg (Ne.symm notSlash), inductionHypothesis slashless]

/-- A text is split in one way at its first slash. -/
theorem append_slash_inj {first second rest : Text} (free : '/' ∉ first) (alsoFree : '/' ∉ second)
    (same : first ++ '/' :: text = second ++ '/' :: rest) : first = second ∧ text = rest := by
  induction first generalizing second with
  | nil =>
      cases second with
      | nil => exact ⟨rfl, List.tail_eq_of_cons_eq same⟩
      | cons letter second =>
          obtain rfl := List.head_eq_of_cons_eq same
          exact absurd List.mem_cons_self alsoFree
  | cons letter first inductionHypothesis =>
      cases second with
      | nil =>
          obtain rfl := List.head_eq_of_cons_eq same
          exact absurd List.mem_cons_self free
      | cons other second =>
          obtain rfl := List.head_eq_of_cons_eq same
          obtain ⟨rfl, rfl⟩ := inductionHypothesis (fun member => free (List.mem_cons_of_mem _ member))
            (fun member => alsoFree (List.mem_cons_of_mem _ member)) (List.tail_eq_of_cons_eq same)
          exact ⟨rfl, rfl⟩

theorem joinWith_cons_slash (name : Text) (filled : names ≠ []) :
    Text.joinWith ['/'] (name :: names) = name ++ '/' :: Text.joinWith ['/'] names := by
  rw [Text.joinWith_cons ['/'] name filled, List.append_assoc, List.singleton_append]

/-- Behind its slashes, what is left of a path are its last names. -/
theorem mem_behindSlashes_joinWith (areNames : AreEntryNames names) (filled : names ≠ []) :
    behind ∈ Text.joinWith ['/'] names :: behindSlashes (Text.joinWith ['/'] names) ↔
      ∃ left, left <:+ names ∧ left ≠ [] ∧ behind = Text.joinWith ['/'] left := by
  induction names with
  | nil => exact absurd rfl filled
  | cons name names inductionHypothesis =>
      obtain ⟨isName, areNames⟩ := List.forall_mem_cons.mp areNames
      by_cases more : names = []
      · subst more
        rw [Text.joinWith, behindSlashes_of_slashless isName.slashless, List.mem_singleton]
        constructor
        · rintro rfl
          exact ⟨[behind], List.suffix_refl _, List.cons_ne_nil _ _, rfl⟩
        · rintro ⟨left, isSuffix, filled, rfl⟩
          obtain rfl : left = [name] := by
            rcases List.suffix_cons_iff.mp isSuffix with same | none
            · exact same
            · exact absurd (List.suffix_nil.mp none) filled
          rfl
      · rw [List.mem_cons, joinWith_cons_slash name more, behindSlashes_append isName.slashless,
          inductionHypothesis areNames more]
        constructor
        · rintro (rfl | ⟨left, isSuffix, filled, rfl⟩)
          · exact ⟨name :: names, List.suffix_refl _, List.cons_ne_nil _ _, (joinWith_cons_slash name more).symm⟩
          · exact ⟨left, isSuffix.trans (List.suffix_cons _ _), filled, rfl⟩
        · rintro ⟨left, isSuffix, filled, rfl⟩
          rcases List.suffix_cons_iff.mp isSuffix with rfl | isSuffix
          · exact .inl (joinWith_cons_slash name more)
          · exact .inr ⟨left, isSuffix, filled, rfl⟩

/-- A piece that stands for the empty text stands for any. -/
theorem matchesText_of_matchesText_nil (filled : pattern ≠ []) (isName : IsNamePattern pattern)
    (isMatch : matchesText pattern [] = true) (text : Text) : matchesText pattern text = true := by
  obtain ⟨token, rest, rfl⟩ := List.exists_cons_of_ne_nil filled
  by_cases single : token.isSingle = true
  · obtain ⟨letter, left, same, _⟩ := (matchesText_single single).mp isMatch
    cases same
  cases token with
  | anyRun =>
      obtain ⟨front, behind, same, isMatch⟩ := matchesText_anyRun.mp isMatch
      obtain ⟨rfl, rfl⟩ := List.append_eq_nil_iff.mp same.symm
      exact matchesText_anyRun.mpr ⟨text, [], (List.append_nil _).symm, isMatch⟩
  | anyDirectories => exact absurd rfl (isName _ List.mem_cons_self).2
  | letter | anyLetter | oneOf | noneOf => exact absurd rfl single

theorem joinWith_ne_nil (areNames : AreEntryNames names) (filled : names ≠ []) :
    Text.joinWith ['/'] names ≠ [] := by
  obtain ⟨name, left, rfl⟩ := List.exists_cons_of_ne_nil filled
  have isName := areNames name List.mem_cons_self
  cases left with
  | nil => exact isName.filled
  | cons next left =>
      rw [joinWith_cons_slash name (List.cons_ne_nil next left)]
      exact List.append_ne_nil_of_left_ne_nil isName.filled _

theorem joined_name (isName : IsNamePattern pattern) (behindStars : Bool) :
    joined behindStars (pattern :: patterns) =
      pattern ++ if patterns = [] then [] else .letter '/' :: joined false patterns := by
  rw [joined, isRecursive_eq_false isName]
  cases patterns with
  | nil => simp [joined]
  | cons next patterns => simp

/-- A slash is matched only by a slash. -/
theorem matchesApart_slash :
    matchesApart (.letter '/' :: rest) text = true ↔
      ∃ left, text = '/' :: left ∧ matchesApart rest left = true := by
  rw [matchesApart_single rfl]
  constructor
  · rintro ⟨letter, left, rfl, accepts, isMatch⟩
    obtain rfl : letter = '/' := by simpa [Token.accepts] using (Bool.and_eq_true_iff.mp accepts).1
    exact ⟨left, rfl, isMatch⟩
  · rintro ⟨left, rfl, isMatch⟩
    exact ⟨'/', left, rfl, rfl, isMatch⟩

/-- The first piece is matched with the first name, the others with the others. -/
theorem matchesApart_joined_name (isName : IsNamePattern pattern) (ends : EndInName (pattern :: patterns))
    (areNames : AreEntryNames names) (filled : names ≠ [])
    (further : ∀ left, AreEntryNames left → left ≠ [] →
      (matchesApart (joined false patterns) (Text.joinWith ['/'] left) = true ↔
        matchesPieces patterns left = true)) :
    matchesApart (joined false (pattern :: patterns)) (Text.joinWith ['/'] names) = true ↔
      matchesPieces (pattern :: patterns) names = true := by
  obtain ⟨name, left, rfl⟩ := List.exists_cons_of_ne_nil filled
  obtain ⟨isEntry, areLeft⟩ := List.forall_mem_cons.mp areNames
  have pieces : matchesPieces (pattern :: patterns) (name :: left) =
      (matchesText pattern name && matchesPieces patterns left) := by
    simp [matchesPieces, isRecursive_eq_false isName]
  rw [joined_name isName, matchesApart_append isName, pieces, Bool.and_eq_true_iff]
  by_cases more : left = []
  · subst more
    by_cases last : patterns = []
    · subst last
      simp only [if_true]
      constructor
      · rintro ⟨front, behind, same, _, isMatch, isEmpty⟩
        obtain rfl := List.isEmpty_iff.mp isEmpty
        obtain rfl : name = front := same.trans (List.append_nil front)
        exact ⟨isMatch, rfl⟩
      · rintro ⟨isMatch, _⟩
        exact ⟨name, [], (List.append_nil _).symm, isEntry.slashless, isMatch, rfl⟩
    · rw [if_neg last, matchesPieces_nil (ends.of_cons last) last]
      refine iff_of_false ?_ (by simp)
      rintro ⟨front, behind, same, _, _, isMatch⟩
      obtain ⟨rest, rfl, _⟩ := matchesApart_slash.mp isMatch
      obtain rfl : name = front ++ '/' :: rest := same
      exact isEntry.slashless (List.mem_append_right front List.mem_cons_self)
  · rw [joinWith_cons_slash name more]
    by_cases last : patterns = []
    · subst last
      have notLast : matchesPieces [] left = false := by simpa [matchesPieces] using more
      rw [if_pos rfl, notLast]
      refine iff_of_false ?_ (by simp)
      rintro ⟨front, behind, same, free, _, isEmpty⟩
      obtain rfl := List.isEmpty_iff.mp isEmpty
      rw [List.append_nil] at same
      exact free (same ▸ List.mem_append_right name List.mem_cons_self)
    · rw [if_neg last, ← further left areLeft more]
      constructor
      · rintro ⟨front, behind, same, free, isMatch, onward⟩
        obtain ⟨rest, rfl, onward⟩ := matchesApart_slash.mp onward
        obtain ⟨rfl, rfl⟩ := append_slash_inj isEntry.slashless free same
        exact ⟨isMatch, onward⟩
      · rintro ⟨isMatch, onward⟩
        exact ⟨name, _, rfl, isEntry.slashless, isMatch, matchesApart_slash.mpr ⟨_, rfl, onward⟩⟩

/-- If wildcards leave slashes alone, a path is matched name by name. -/
theorem matchesApart_joined (arePieces : ∀ pattern ∈ patterns, IsPiece pattern)
    (ends : EndInName patterns) (areNames : AreEntryNames names) (filled : names ≠ []) :
    (matchesApart (joined false patterns) (Text.joinWith ['/'] names) = true ↔
        matchesPieces patterns names = true) ∧
      (matchesApart (.anyDirectories :: joined true patterns) (Text.joinWith ['/'] names) = true ↔
        ∃ left, left <:+ names ∧ matchesPieces patterns left = true) := by
  induction patterns generalizing names with
  | nil =>
      constructor
      · simp [joined, matchesApart, matchesPieces, joinWith_ne_nil areNames filled, filled]
      · have all : matchesApart (.anyDirectories :: joined true []) (Text.joinWith ['/'] names) = true := by
          simp [joined, matchesApart]
        exact iff_of_true all ⟨[], List.nil_suffix, rfl⟩
  | cons pattern patterns inductionHypothesis =>
      obtain ⟨isPiece, areOthers⟩ := List.forall_mem_cons.mp arePieces
      rcases isPiece with rfl | ⟨notEmpty, isName⟩
      · have isStars : isRecursive [.anyDirectories] = true := rfl
        have more : patterns ≠ [] := by
          rintro rfl
          exact absurd (ends _ rfl) (by simp [isStars])
        have further := inductionHypothesis areOthers (ends.of_cons more) areNames filled
        constructor
        · exact further.2.trans (matchesPieces_recursive isStars).symm
        · -- Two stars in a row stand for what one pair stands for.
          refine further.2.trans ?_
          constructor
          · rintro ⟨left, isSuffix, isMatch⟩
            exact ⟨left, isSuffix, (matchesPieces_recursive isStars).mpr ⟨left, List.suffix_refl _, isMatch⟩⟩
          · rintro ⟨left, isSuffix, isMatch⟩
            obtain ⟨rest, isRest, isMatch⟩ := (matchesPieces_recursive isStars).mp isMatch
            exact ⟨rest, isRest.trans isSuffix, isMatch⟩
      · have here : ∀ left, AreEntryNames left → left ≠ [] →
            (matchesApart (joined false (pattern :: patterns)) (Text.joinWith ['/'] left) = true ↔
              matchesPieces (pattern :: patterns) left = true) := by
          intro left areLeft leftFilled
          refine matchesApart_joined_name isName ends areLeft leftFilled fun others areOthersNames some => ?_
          by_cases last : patterns = []
          · subst last
            simp [joined, matchesApart, matchesPieces, joinWith_ne_nil areOthersNames some, some]
          · exact (inductionHypothesis areOthers (ends.of_cons last) areOthersNames some).1
        refine ⟨here names areNames filled, ?_⟩
        have alike : joined true (pattern :: patterns) = joined false (pattern :: patterns) := by
          rw [joined_name isName, joined_name isName]
        rw [alike, matchesApart, Bool.or_eq_true_iff, List.any_eq_true]
        constructor
        · rintro (⟨behind, member, isMatch⟩ | isMatch)
          · obtain ⟨left, isSuffix, some, rfl⟩ := (mem_behindSlashes_joinWith areNames filled).mp member
            exact ⟨left, isSuffix, (here left (areNames.subset isSuffix.subset) some).mp isMatch⟩
          · -- What stands for nothing at all is a lone run, which stands for the last name too.
            have last : patterns = [] := by
              by_contra more
              rw [joined_name isName, if_neg more, matchesApart_append isName] at isMatch
              obtain ⟨front, behind, same, _, _, onward⟩ := isMatch
              obtain ⟨rest, rfl, _⟩ := matchesApart_slash.mp onward
              exact absurd same.symm (List.append_ne_nil_of_right_ne_nil _ (List.cons_ne_nil _ _))
            subst last
            rw [joined_name isName, if_pos rfl, List.append_nil] at isMatch
            obtain ⟨front, name, rfl⟩ := (List.eq_nil_or_concat' names).resolve_left filled
            have all := matchesText_of_matchesText_nil notEmpty isName (matchesText_of_matchesApart isMatch) name
            exact ⟨[name], List.suffix_append _ _, (matchesPieces_name (isRecursive_eq_false isName)).mpr
              ⟨name, [], rfl, all, rfl⟩⟩
        · rintro ⟨left, isSuffix, isMatch⟩
          have some : left ≠ [] := by
            rintro rfl
            rw [matchesPieces_nil ends (List.cons_ne_nil _ _)] at isMatch
            cases isMatch
          exact .inl ⟨_, (mem_behindSlashes_joinWith areNames filled).mpr ⟨left, isSuffix, some, rfl⟩,
            (here left (areNames.subset isSuffix.subset) some).mpr isMatch⟩

end ImportMeter.Glob
