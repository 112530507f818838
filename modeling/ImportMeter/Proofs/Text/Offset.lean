/-
This file measures positions of a text in bytes. An offset that is no boundary of a character has no
position, and a slice by offsets fails there.
-/
import ImportMeter.Proofs.Text
import ImportMeter.Proofs.Text.Utf8

namespace ImportMeter.Text

/-- The number of characters in front of an offset in bytes, or `none` inside a character and past the
end. -/
def positionAt? : Text → Nat → Option Nat
  | _, 0 => some 0
  | [], _ + 1 => none
  | letter :: rest, offset + 1 =>
    if letter.utf8Size ≤ offset + 1 then
      (positionAt? rest (offset + 1 - letter.utf8Size)).map (· + 1)
    else none

/-- The part of a text between two offsets in bytes. There is none unless the offsets are in order, in
the text and at boundaries of characters. -/
def sliceAt? (text : Text) (first last : Nat) : Option Text :=
  if first ≤ last then
    match text.positionAt? first, text.positionAt? last with
    | some start, some stop => some (text.slice start stop)
    | _, _ => none
  else none

/-- The offset in bytes of a position. -/
def offsetOf (text : Text) (position : Nat) : Nat :=
  utf8Length (text.take position)

variable {text : Text} {letter : Char} {position first last : Nat}

theorem positionAt?_append (front behind : Text) :
    (front ++ behind).positionAt? front.utf8Length = some front.length := by
  induction front with
  | nil => cases behind <;> rfl
  | cons letter front inductionHypothesis =>
      obtain ⟨size, isSize⟩ := Nat.exists_eq_add_of_lt letter.utf8Size_pos
      have whole : utf8Length (letter :: front) = size + utf8Length front + 1 := by
        rw [utf8Length_cons]
        omega
      have others : size + utf8Length front + 1 - letter.utf8Size = utf8Length front := by omega
      rw [whole, List.cons_append, positionAt?, if_pos (by omega), others, inductionHypothesis]
      rfl

/-- An offset has a position exactly where a leading part of the text ends. -/
theorem positionAt?_eq_some {offset : Nat} (found : text.positionAt? offset = some position) :
    position ≤ text.length ∧ text.offsetOf position = offset := by
  induction text generalizing offset position with
  | nil =>
      cases offset with
      | zero =>
          cases found
          exact ⟨Nat.le_refl _, rfl⟩
      | succ offset => cases found
  | cons letter text inductionHypothesis =>
      cases offset with
      | zero =>
          cases found
          exact ⟨Nat.zero_le _, rfl⟩
      | succ offset =>
          rw [positionAt?] at found
          split at found
          next fits =>
            obtain ⟨before, inRest, rfl⟩ := Option.map_eq_some_iff.mp found
            obtain ⟨inside, same⟩ := inductionHypothesis inRest
            refine ⟨Nat.succ_le_succ inside, ?_⟩
            rw [offsetOf] at same ⊢
            rw [List.take_succ_cons, utf8Length_cons, same]
            omega
          next => cases found

theorem positionAt?_offsetOf (inside : position ≤ text.length) :
    text.positionAt? (text.offsetOf position) = some position := by
  have split : positionAt? (text.take position ++ text.drop position) (text.offsetOf position) =
      some (text.take position).length := positionAt?_append _ _
  rwa [List.take_append_drop, List.length_take, Nat.min_eq_left inside] at split

theorem offsetOf_zero (text : Text) : text.offsetOf 0 = 0 := rfl

theorem offsetOf_length (text : Text) : text.offsetOf text.length = text.utf8Length := by
  rw [offsetOf, List.take_length]

/-- A character ends as many bytes behind its start as it takes. -/
theorem offsetOf_succ (found : text[position]? = some letter) :
    text.offsetOf (position + 1) = text.offsetOf position + letter.utf8Size := by
  rw [offsetOf, offsetOf, List.take_add_one, found, utf8Length_append, Option.toList_some,
    utf8Length_cons]
  rfl

/-- Behind a run of characters of one byte the offset grows like the position. -/
theorem offsetOf_add {count : Nat} (short : ∀ index letter, position ≤ index →
      index < position + count → text[index]? = some letter → letter.utf8Size = 1)
    (inside : position + count ≤ text.length) :
    text.offsetOf (position + count) = text.offsetOf position + count := by
  induction count with
  | zero => rfl
  | succ count inductionHypothesis =>
      have found : text[position + count]? = some text[position + count] :=
        List.getElem?_eq_getElem (by omega)
      rw [← Nat.add_assoc, offsetOf_succ found, short _ _ (by omega) (by omega) found,
        inductionHypothesis (fun index letter low high => short index letter low (by omega)) (by omega),
        Nat.add_assoc]

theorem offsetOf_le (order : first ≤ last) : text.offsetOf first ≤ text.offsetOf last := by
  obtain ⟨more, rfl⟩ := Nat.exists_eq_add_of_le order
  rw [offsetOf, offsetOf, List.take_add, utf8Length_append]
  exact Nat.le_add_right _ _

theorem offsetOf_lt (order : first < last) (inside : last ≤ text.length) :
    text.offsetOf first < text.offsetOf last := by
  have found : text[first]? = some text[first] := List.getElem?_eq_getElem (by omega)
  have size := text[first].utf8Size_pos
  have behind : text.offsetOf (first + 1) ≤ text.offsetOf last := offsetOf_le order
  rw [offsetOf_succ found] at behind
  omega

theorem offsetOf_le_iff (firstInside : first ≤ text.length) :
    text.offsetOf first ≤ text.offsetOf last ↔ first ≤ last := by
  constructor
  · intro order
    by_contra other
    have above := offsetOf_lt (Nat.lt_of_not_le other) firstInside
    omega
  · exact offsetOf_le

theorem offsetOf_lt_iff (lastInside : last ≤ text.length) :
    text.offsetOf first < text.offsetOf last ↔ first < last := by
  constructor
  · intro order
    by_contra other
    have below : text.offsetOf last ≤ text.offsetOf first := offsetOf_le (Nat.le_of_not_lt other)
    omega
  · exact fun order => offsetOf_lt order lastInside

/-- The slice between the offsets of two positions is the slice between the positions. -/
theorem sliceAt?_offsetOf (order : first ≤ last) (inside : last ≤ text.length) :
    text.sliceAt? (text.offsetOf first) (text.offsetOf last) = some (text.slice first last) := by
  rw [sliceAt?, if_pos (offsetOf_le order), positionAt?_offsetOf (Nat.le_trans order inside),
    positionAt?_offsetOf inside]

/-- A slice is taken exactly from where a leading part of the text ends to where a longer one ends. -/
theorem sliceAt?_eq_some_iff {part : Text} : text.sliceAt? first last = some part ↔
    ∃ before behind, text = before ++ part ++ behind ∧ before.utf8Length = first ∧
      (before ++ part).utf8Length = last := by
  constructor
  · intro found
    rw [sliceAt?] at found
    split at found
    next order =>
      split at found
      next start stop isStart isStop =>
        cases found
        obtain ⟨startInside, rfl⟩ := positionAt?_eq_some isStart
        obtain ⟨stopInside, rfl⟩ := positionAt?_eq_some isStop
        have order := (offsetOf_le_iff startInside).mp order
        have front : text.take start ++ text.slice start stop = text.take stop := by
          have both : text.slice 0 start ++ text.slice start stop = text.slice 0 stop :=
            slice_append_slice (Nat.zero_le start) order
          simpa only [slice, List.drop_zero, Nat.sub_zero] using both
        exact ⟨text.take start, text.drop stop, by rw [front, List.take_append_drop], rfl,
          by rw [front]; rfl⟩
      next => cases found
    next => cases found
  · rintro ⟨before, behind, rfl, rfl, rfl⟩
    have atStart := positionAt?_append before (part ++ behind)
    rw [← List.append_assoc] at atStart
    rw [sliceAt?, if_pos (by rw [utf8Length_append]; exact Nat.le_add_right _ _), atStart,
      positionAt?_append, List.length_append]
    exact congrArg some (slice_append before part behind)

/-- Between the offsets of a part that stands in a text, the slice is the part. -/
theorem StandsAt.sliceAt?_eq {part : Text} (stands : StandsAt text position part) :
    text.sliceAt? (text.offsetOf position) (text.offsetOf (position + part.length)) = some part := by
  rw [sliceAt?_offsetOf (Nat.le_add_right _ _) stands.stop_le, stands.slice_eq]

/-! ### Bytes and characters -/

theorem utf8Length_eq_length (text : Text) : text.utf8Length = text.toBytes.length := by
  induction text with
  | nil => rfl
  | cons letter text inductionHypothesis =>
      rw [utf8Length_cons, toBytes, List.flatMap_cons, List.length_append,
        String.length_utf8EncodeChar, inductionHypothesis]
      rfl

/-- True for a test of bytes that tells what a test of characters tells, whichever byte of a character it
is given; the characters that pass take one byte. -/
structure Agrees (testByte : UInt8 → Bool) (test : Char → Bool) : Prop where
  same : ∀ letter, ∀ byte ∈ String.utf8EncodeChar letter, testByte byte = test letter
  short : ∀ letter, test letter = true → letter.utf8Size = 1

/-- An ASCII character may be looked for among the bytes. -/
theorem agrees_letter (wanted : Char) (ascii : wanted.val.toNat < 0x80) :
    Agrees (fun byte => byte = UInt8.ofNat wanted.val.toNat) (fun letter => letter = wanted) := by
  have code : (UInt8.ofNat wanted.val.toNat).toNat = wanted.val.toNat :=
    UInt8.toNat_ofNat_of_lt' (Nat.lt_trans ascii (by decide))
  refine ⟨fun letter byte member => decide_eq_decide.mpr ⟨fun isCode => ?_, fun isLetter => ?_⟩,
    fun letter isLetter => ?_⟩
  · rw [← UInt8.toNat_inj, code] at isCode
    rcases toNat_of_mem_utf8EncodeChar member with same | high
    · exact Char.ext (UInt32.toNat_inj.mp (same.symm.trans isCode))
    · omega
  · subst isLetter
    rw [utf8EncodeChar_short ascii] at member
    exact List.mem_singleton.mp member
  · rw [of_decide_eq_true isLetter, ← String.length_utf8EncodeChar, utf8EncodeChar_short ascii]
    rfl

namespace Agrees

variable {testByte otherByte : UInt8 → Bool} {test other : Char → Bool}

theorem or (agrees : Agrees testByte test) (otherAgrees : Agrees otherByte other) :
    Agrees (fun byte => testByte byte || otherByte byte) (fun letter => test letter || other letter) := by
  refine ⟨fun letter byte member => ?_, fun letter passes => ?_⟩
  · rw [agrees.same letter byte member, otherAgrees.same letter byte member]
  · rcases Bool.or_eq_true_iff.mp passes with first | second
    · exact agrees.short letter first
    · exact otherAgrees.short letter second

/-- The first byte behind an offset tells what the character there tells. -/
theorem getElem?_any (agrees : Agrees testByte test) (text : Text) (position : Nat) :
    (text.toBytes[text.offsetOf position]?).any testByte = (text[position]?).any test := by
  induction text generalizing position with
  | nil => rfl
  | cons letter text inductionHypothesis =>
      have bytes : toBytes (letter :: text) = String.utf8EncodeChar letter ++ toBytes text := rfl
      have size := letter.utf8Size_pos
      rw [← String.length_utf8EncodeChar] at size
      cases position with
      | zero =>
          obtain ⟨byte, others, encoded⟩ := List.exists_cons_of_length_pos size
          have byteSame := agrees.same letter byte (encoded ▸ List.mem_cons_self)
          rw [bytes, offsetOf_zero, encoded]
          exact byteSame
      | succ position =>
          have offset : offsetOf (letter :: text) (position + 1) =
              (String.utf8EncodeChar letter).length + offsetOf text position := by
            rw [offsetOf, List.take_succ_cons, utf8Length_cons, String.length_utf8EncodeChar]
            rfl
          rw [bytes, offset, List.getElem?_append_right (Nat.le_add_right _ _),
            Nat.add_sub_cancel_left, inductionHypothesis]
          rfl

/-- The last byte in front of an offset tells what the character there tells. -/
theorem getElem?_pred (agrees : Agrees testByte test) (found : text[position]? = some letter) :
    ∃ byte, text.toBytes[text.offsetOf (position + 1) - 1]? = some byte ∧ testByte byte = test letter := by
  induction text generalizing position with
  | nil => cases found
  | cons first text inductionHypothesis =>
      have bytes : toBytes (first :: text) = String.utf8EncodeChar first ++ toBytes text := rfl
      have size := first.utf8Size_pos
      have offset : ∀ position, offsetOf (first :: text) (position + 1) =
          (String.utf8EncodeChar first).length + offsetOf text position := by
        intro position
        rw [offsetOf, List.take_succ_cons, utf8Length_cons, String.length_utf8EncodeChar]
        rfl
      rw [← String.length_utf8EncodeChar] at size
      cases position with
      | zero =>
          obtain rfl : first = letter := Option.some.inj found
          have last := List.getElem?_eq_getElem
            (l := String.utf8EncodeChar first) (i := (String.utf8EncodeChar first).length - 1) (by omega)
          rw [bytes, offset, offsetOf_zero, Nat.add_zero, List.getElem?_append_left (by omega), last]
          exact ⟨_, rfl, agrees.same first _ (List.getElem_mem _)⟩
      | succ position =>
          obtain ⟨byte, isByte, same⟩ := inductionHypothesis (List.getElem?_cons_succ ▸ found)
          have positive : 0 < offsetOf text (position + 1) := by
            have isLetter : text[position]? = some letter := found
            rw [offsetOf_succ isLetter]
            exact Nat.add_pos_right _ letter.utf8Size_pos
          have behind : (String.utf8EncodeChar first).length + offsetOf text (position + 1) - 1 -
              (String.utf8EncodeChar first).length = offsetOf text (position + 1) - 1 := by omega
          rw [bytes, offset, List.getElem?_append_right (by omega), behind]
          exact ⟨byte, isByte, same⟩

/-- The bytes that pass at the head of a text are those of the characters that pass. -/
theorem takeWhile_length (agrees : Agrees testByte test) (text : Text) :
    (text.toBytes.takeWhile testByte).length = (text.takeWhile test).length := by
  induction text with
  | nil => rfl
  | cons letter text inductionHypothesis =>
      have bytes : toBytes (letter :: text) = String.utf8EncodeChar letter ++ toBytes text := rfl
      have size := letter.utf8Size_pos
      by_cases passes : test letter = true
      · have short := agrees.short letter passes
        rw [← String.length_utf8EncodeChar] at short
        obtain ⟨byte, encoded⟩ := List.length_eq_one_iff.mp short
        have same := agrees.same letter byte (encoded ▸ List.mem_singleton_self byte)
        rw [bytes, encoded, List.singleton_append, List.takeWhile_cons_of_pos (same.trans passes),
          List.takeWhile_cons_of_pos passes, List.length_cons, List.length_cons, inductionHypothesis]
      · rw [← String.length_utf8EncodeChar] at size
        obtain ⟨byte, others, encoded⟩ := List.exists_cons_of_length_pos size
        have same := agrees.same letter byte (encoded ▸ List.mem_cons_self)
        rw [bytes, encoded, List.cons_append,
          List.takeWhile_cons_of_neg (by rw [same]; exact passes),
          List.takeWhile_cons_of_neg passes]
        rfl

end Agrees

theorem drop_toBytes (text : Text) (position : Nat) :
    text.toBytes.drop (text.offsetOf position) = toBytes (text.drop position) := by
  have split : text.toBytes = toBytes (text.take position) ++ toBytes (text.drop position) := by
    rw [toBytes, toBytes, toBytes, ← List.flatMap_append, List.take_append_drop]
  rw [split, offsetOf, utf8Length_eq_length, List.drop_left]

end ImportMeter.Text
