/-
This file collects facts about the parts of a text.
-/
import ImportMeter.Text.Basic

namespace ImportMeter.Text

theorem dropFront?_eq_some {text front rest : Text} :
    text.dropFront? front = some rest ↔ text = front ++ rest := by
  induction front generalizing text with
  | nil => simp [dropFront?, eq_comm]
  | cons head front inductionHypothesis =>
      cases text with
      | nil => simp [dropFront?]
      | cons letter text =>
          simp only [dropFront?, List.cons_append, List.cons.injEq]
          split
          next same => simp [same, inductionHypothesis]
          next other => simp [other]

/-- A text starts with its leading parts. -/
theorem startsWith_iff {text front : Text} :
    text.startsWith front = true ↔ ∃ rest, text = front ++ rest := by
  simp only [startsWith, Option.isSome_iff_exists, dropFront?_eq_some]

theorem take_of_startsWith {text front : Text} (starts : text.startsWith front = true) :
    text.take front.length = front := by
  obtain ⟨rest, rfl⟩ := startsWith_iff.mp starts
  exact List.take_left

/-- A part that lies between two others. -/
theorem slice_append (before part behind : Text) :
    slice (before ++ part ++ behind) before.length (before.length + part.length) = part := by
  simp [slice]

@[simp] theorem slice_same (text : Text) (position : Nat) : text.slice position position = [] := by
  simp [slice]

/-- Two parts that meet make up one. -/
theorem slice_append_slice {text : Text} {first middle last : Nat} (low : first ≤ middle)
    (high : middle ≤ last) :
    text.slice first middle ++ text.slice middle last = text.slice first last := by
  have middleEq : middle = first + (middle - first) := by omega
  have lengthEq : last - first = (middle - first) + (last - middle) := by omega
  simp only [slice]
  rw [lengthEq, List.take_add, List.drop_drop, ← middleEq]

theorem slice_length {text : Text} {first last : Nat} (inside : last ≤ text.length) :
    (text.slice first last).length = last - first := by
  simp only [slice, List.length_take, List.length_drop]
  omega

theorem slice_min (text : Text) (first last : Nat) :
    text.slice first (min text.length last) = text.slice first last := by
  simp only [slice]
  rw [List.take_eq_take_iff, List.length_drop]
  omega

theorem slice_all (text : Text) : text.slice 0 text.length = text := by
  simp [slice]

theorem getElem?_of_slice {text : Text} {first last index : Nat} {letter : Char}
    (found : (text.slice first last)[index]? = some letter) : text[first + index]? = some letter := by
  rw [slice, List.getElem?_take] at found
  split at found
  · rwa [List.getElem?_drop] at found
  · cases found

theorem mem_slice {text : Text} {first last : Nat} {letter : Char}
    (member : letter ∈ text.slice first last) :
    ∃ position, first ≤ position ∧ position < last ∧ text[position]? = some letter := by
  obtain ⟨index, found⟩ := List.getElem?_of_mem member
  obtain ⟨inside, _⟩ := List.getElem?_eq_some_iff.mp found
  rw [slice, List.length_take] at inside
  exact ⟨first + index, Nat.le_add_right _ _, by omega, getElem?_of_slice found⟩

theorem utf8Length_cons (letter : Char) (text : Text) :
    utf8Length (letter :: text) = letter.utf8Size + utf8Length text := by
  have shifted : ∀ (text : Text) (start : Nat),
      text.foldl (fun count letter => count + letter.utf8Size) start = start + utf8Length text := by
    intro text
    induction text with
    | nil => exact fun start => rfl
    | cons letter text inductionHypothesis =>
        intro start
        rw [utf8Length, List.foldl_cons, List.foldl_cons, inductionHypothesis, inductionHypothesis, Nat.zero_add,
          Nat.add_assoc]
  rw [utf8Length, List.foldl_cons, shifted, Nat.zero_add]

theorem utf8Length_append (first second : Text) :
    utf8Length (first ++ second) = utf8Length first + utf8Length second := by
  induction first with
  | nil => exact (Nat.zero_add _).symm
  | cons letter first inductionHypothesis =>
      rw [List.cons_append, utf8Length_cons, utf8Length_cons, inductionHypothesis, Nat.add_assoc]

theorem length_le_utf8Length (text : Text) : text.length ≤ utf8Length text := by
  induction text with
  | nil => exact Nat.le_refl 0
  | cons letter text inductionHypothesis =>
      have positive := letter.utf8Size_pos
      rw [List.length_cons, utf8Length_cons]
      omega

/-- True if a part stands at a position of a text. -/
def StandsAt (text : Text) (position : Nat) (part : Text) : Prop :=
  ∃ before behind, text = before ++ part ++ behind ∧ before.length = position

namespace StandsAt

variable {text first second part : Text} {position : Nat}

theorem whole (text : Text) : StandsAt text 0 text :=
  ⟨[], [], by simp, rfl⟩

theorem left (stands : StandsAt text position (first ++ second)) : StandsAt text position first := by
  obtain ⟨before, behind, rfl, same⟩ := stands
  exact ⟨before, second ++ behind, by simp, same⟩

theorem right (stands : StandsAt text position (first ++ second)) :
    StandsAt text (position + first.length) second := by
  obtain ⟨before, behind, rfl, same⟩ := stands
  exact ⟨before ++ first, behind, by simp, by simp [same]⟩

theorem slice_eq (stands : StandsAt text position part) :
    text.slice position (position + part.length) = part := by
  obtain ⟨before, behind, rfl, rfl⟩ := stands
  exact slice_append before part behind

theorem stop_le (stands : StandsAt text position part) : position + part.length ≤ text.length := by
  obtain ⟨before, behind, rfl, rfl⟩ := stands
  simp only [List.length_append]
  omega

/-- A slice inside a part is a slice of the part. -/
theorem slice_inside (stands : StandsAt text position part) {low high : Nat}
    (inside : high ≤ part.length) :
    text.slice (position + low) (position + high) = part.slice low high := by
  obtain ⟨before, behind, rfl, rfl⟩ := stands
  have lengthEq : before.length + high - (before.length + low) = high - low := by omega
  simp only [slice, lengthEq, List.append_assoc]
  rw [← List.drop_drop, List.drop_left]
  by_cases order : low ≤ part.length
  · rw [List.drop_append_of_le_length order, List.take_append_of_le_length]
    rw [List.length_drop]
    omega
  · have none : high - low = 0 := by omega
    rw [none, List.take_zero, List.take_zero]

/-- A letter of a part stands in the text. -/
theorem getElem? {index : Nat} {letter : Char}
    (stands : StandsAt text position part) (found : part[index]? = some letter) :
    text[position + index]? = some letter := by
  obtain ⟨before, behind, rfl, rfl⟩ := stands
  obtain ⟨inside, _⟩ := List.getElem?_eq_some_iff.mp found
  rw [List.append_assoc, List.getElem?_append_right (Nat.le_add_right _ _), Nat.add_sub_cancel_left,
    List.getElem?_append_left inside]
  exact found

end StandsAt

end ImportMeter.Text
