/-
This file says which texts are read as one name, escapes included, and that they are read so in front of a
space.
-/
import ImportMeter.Proofs.Script.Literal
import ImportMeter.Proofs.Script.RuleShape

namespace ImportMeter.Script

variable {text front name rest : Text} {letter : Char} {length pending : Nat}

/-- True for a text that is read as one name. -/
def IsIdentifier (name : Text) : Prop := nameLength name = some name.length

instance (name : Text) : Decidable (IsIdentifier name) :=
  inferInstanceAs (Decidable (nameLength name = some name.length))

/-! ### Escapes -/

theorem runLength_le_append (test : Char → Bool) (text rest : Text) :
    runLength test text ≤ text.length ∧ runLength test text ≤ runLength test (text ++ rest) := by
  obtain ⟨inside, behind, rfl, passes, stops⟩ := exists_run test text
  rw [runLength_append passes stops, List.append_assoc]
  exact ⟨by simp, length_le_runLength passes _⟩

theorem exists_bracedHex (found : bracedHexLength text = some length) :
    ∃ digits behind, text = digits ++ '}' :: behind ∧ (∀ digit ∈ digits, isHex digit = true) ∧
      digits ≠ [] ∧ length = digits.length + 1 := by
  obtain ⟨digits, behind, rfl, areHex, stops⟩ := exists_run isHex text
  rw [bracedHexLength, runLength_append areHex stops] at found
  simp only [List.drop_left] at found
  split at found
  next => cases found
  next filled =>
    split at found
    next others =>
      cases found
      exact ⟨digits, others, rfl, areHex, fun empty => filled (by rw [empty]; rfl), rfl⟩
    next => cases found

/-- An escape is one whatever follows it. -/
theorem nameEscapeLength_append (found : nameEscapeLength text = some length) (rest : Text) :
    length ≤ text.length ∧ nameEscapeLength (text ++ rest) = some length := by
  unfold nameEscapeLength at found
  split at found
  next tail =>
    obtain ⟨digits, braced, rfl⟩ := Option.map_eq_some_iff.mp found
    obtain ⟨digits, behind, rfl, areHex, filled, rfl⟩ := exists_bracedHex braced
    refine ⟨by simp, ?_⟩
    rw [List.cons_append, List.cons_append, List.cons_append, List.append_assoc, List.cons_append,
      nameEscapeLength, bracedHexLength_append areHex filled]
    rfl
  next tail unbraced =>
    obtain ⟨short, stays⟩ := runLength_le_append isHex tail rest
    split at found
    next enough =>
      cases found
      refine ⟨by simp only [List.length_cons]; omega, ?_⟩
      rw [List.cons_append, List.cons_append, nameEscapeLength, if_pos (Nat.le_trans enough stays)]
      intro others same
      cases tail with
      | nil => exact absurd enough (by decide)
      | cons digit tail => exact unbraced tail (by rw [(List.cons.inj same).1])
    next => cases found
  next => cases found

/-- An escape begins with a backslash. -/
theorem eq_backslash_of_nameEscape (found : nameEscapeLength (letter :: rest) = some length) :
    letter = '\\' := by
  unfold nameEscapeLength at found
  split at found
  next same => exact (List.cons.inj same).1
  next same => exact (List.cons.inj same).1
  next => cases found

/-! ### Names -/

theorem nameTailLength_parts (parts : ∀ letter ∈ front, isNamePart letter = true) (rest : Text) :
    nameTailLength 0 (front ++ rest) = front.length + nameTailLength 0 rest := by
  induction front with
  | nil => exact (Nat.zero_add _).symm
  | cons letter front inductionHypothesis =>
      obtain ⟨isPart, parts⟩ := List.forall_mem_cons.mp parts
      rw [List.cons_append, nameTailLength, if_pos isPart, inductionHypothesis parts, List.length_cons]
      omega

theorem opens_of_nameTailLength (positive : nameTailLength 0 (letter :: rest) ≠ 0) :
    isNamePart letter = true ∨ letter = '\\' := by
  rw [nameTailLength] at positive
  split at positive
  next isPart => exact .inl isPart
  next =>
    split at positive
    next found => exact .inr (eq_backslash_of_nameEscape found)
    next => exact absurd rfl positive

/-- What is a name to its end is one in front of a space. -/
theorem nameTailLength_append (inside : pending ≤ name.length)
    (whole : nameTailLength pending name = name.length) (rest : Text) :
    nameTailLength pending (name ++ ' ' :: rest) = name.length := by
  induction name generalizing pending with
  | nil =>
      obtain rfl := Nat.le_zero.mp inside
      rfl
  | cons letter name inductionHypothesis =>
      rw [List.length_cons] at inside whole ⊢
      cases pending with
      | succ pending =>
          rw [nameTailLength] at whole
          rw [List.cons_append, nameTailLength,
            inductionHypothesis (Nat.le_of_succ_le_succ inside) (Nat.succ.inj whole)]
      | zero =>
          rw [nameTailLength] at whole
          rw [List.cons_append, nameTailLength]
          split at whole
          next isPart =>
            rw [if_pos isPart, inductionHypothesis (Nat.zero_le _) (Nat.succ.inj whole)]
          next notPart =>
            split at whole
            next length found =>
              obtain ⟨short, stays⟩ := nameEscapeLength_append found (' ' :: rest)
              rw [List.cons_append] at stays
              rw [if_neg notPart, stays]
              simp only [inductionHypothesis (Nat.le_of_succ_le_succ short) (Nat.succ.inj whole)]
            next => cases whole

namespace IsIdentifier

theorem nameTailLength (isIdentifier : IsIdentifier name) : nameTailLength 0 name = name.length := by
  unfold IsIdentifier Script.nameLength at isIdentifier
  split at isIdentifier
  next => cases isIdentifier
  next =>
    split at isIdentifier
    next => exact Option.some.inj isIdentifier
    next => cases isIdentifier

theorem nameLength (isIdentifier : IsIdentifier name) (rest : Text) :
    nameLength (name ++ ' ' :: rest) = some name.length := by
  have tail := nameTailLength_append (Nat.zero_le _) isIdentifier.nameTailLength rest
  unfold IsIdentifier Script.nameLength at isIdentifier
  split at isIdentifier
  next => cases isIdentifier
  next letter others =>
    split at isIdentifier
    next starts =>
      have stays : (isNameStart letter ||
          (nameEscapeLength (letter :: (others ++ ' ' :: rest))).isSome) = true := by
        rw [Bool.or_eq_true] at starts ⊢
        refine starts.imp_right fun isEscape => ?_
        obtain ⟨length, found⟩ := Option.isSome_iff_exists.mp isEscape
        exact Option.isSome_of_eq_some (nameEscapeLength_append found (' ' :: rest)).2
      rw [List.cons_append] at tail ⊢
      rw [Script.nameLength, if_pos stays, tail]
    next => cases isIdentifier

/-- What follows parts of a name is one, or an escape. -/
theorem opens (isIdentifier : IsIdentifier (front ++ letter :: rest))
    (parts : ∀ letter ∈ front, isNamePart letter = true) :
    isNamePart letter = true ∨ letter = '\\' := by
  have whole := isIdentifier.nameTailLength
  rw [nameTailLength_parts parts, List.length_append, List.length_cons] at whole
  have positive : Script.nameTailLength 0 (letter :: rest) ≠ 0 := by omega
  exact opens_of_nameTailLength positive

theorem ne_nil (isIdentifier : IsIdentifier name) : name ≠ [] := by
  rintro rfl
  cases isIdentifier

theorem exists_first (isIdentifier : IsIdentifier name) :
    ∃ first others, name = first :: others ∧ (isNamePart first = true ∨ first = '\\') := by
  obtain ⟨first, others, rfl⟩ := List.exists_cons_of_ne_nil isIdentifier.ne_nil
  have isIdentifier : IsIdentifier ([] ++ first :: others) := isIdentifier
  exact ⟨first, others, rfl, isIdentifier.opens nofun⟩

theorem isSolid (isIdentifier : IsIdentifier name) (rest : Text) : IsSolid (name ++ rest) := by
  obtain ⟨first, others, rfl, opens⟩ := isIdentifier.exists_first
  rcases opens with isPart | rfl
  · refine isSolid_cons (isBlank_of_namePart isPart) fun member => ?_
    simp only [List.mem_cons, List.not_mem_nil, or_false] at member
    rcases member with rfl | rfl | rfl <;> exact absurd isPart (by decide)
  · exact isSolid_cons (by decide) (by decide)

/-- No mark begins with a letter of a name. -/
theorem length?_mark (isIdentifier : IsIdentifier name) (rest : Text) {sign : Char}
    (notPart : isNamePart sign = false) (notEscape : sign ≠ '\\') :
    (Lexeme.mark [sign]).length? (name ++ rest) = none := by
  obtain ⟨first, others, rfl, opens⟩ := isIdentifier.exists_first
  have other : first ≠ sign := by
    rintro rfl
    rcases opens with isPart | isEscape
    · rw [isPart] at notPart
      cases notPart
    · exact notEscape isEscape
  simp only [Lexeme.length?, List.cons_append, Text.startsWith, Text.dropFront?, other, if_false,
    Option.isSome_none, Bool.false_and, Bool.false_eq_true]

theorem length?_word {word : Text} (isIdentifier : IsIdentifier word) (rest : Text) :
    (Lexeme.word word).length? (word ++ ' ' :: rest) = some word.length := by
  have starts : Text.startsWith (word ++ ' ' :: rest) word = true :=
    Text.startsWith_iff.mpr ⟨_, rfl⟩
  simp only [Lexeme.length?, isIdentifier.nameLength, starts, decide_true, Bool.and_self, if_true]

end IsIdentifier

end ImportMeter.Script
