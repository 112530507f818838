/-
This file writes texts as UTF-16 units, and proves that different texts are written differently.
-/
import ImportMeter.Text.Basic

namespace ImportMeter.Text

/-- The units of a code point: one, or two that make up a pair. -/
def unitsOf (code : Nat) : List Nat :=
  if code < 0x10000 then [code]
  else [0xd800 + (code - 0x10000) / 0x400, 0xdc00 + (code - 0x10000) % 0x400]

/-- The UTF-16 units of a text. -/
def toUnits (text : Text) : List Nat := text.flatMap fun letter => unitsOf letter.toNat

variable {letter other : Char} {first second : List Nat}

@[simp] theorem toUnits_nil : toUnits [] = [] := rfl

@[simp] theorem toUnits_cons (letter : Char) (text : Text) :
    toUnits (letter :: text) = unitsOf letter.toNat ++ toUnits text := rfl

@[simp] theorem toUnits_append (front behind : Text) :
    toUnits (front ++ behind) = toUnits front ++ toUnits behind :=
  List.flatMap_append

theorem unitsOf_of_lt {code : Nat} (small : code < 0x10000) : unitsOf code = [code] := if_pos small

theorem unitsOf_ne_nil (code : Nat) : unitsOf code ≠ [] := by
  rw [unitsOf]
  split <;> exact List.cons_ne_nil _ _

/-- No unit of a pair is a character, so the units of one character are not begun by those of another. -/
theorem unitsOf_append_inj (same : unitsOf letter.toNat ++ first = unitsOf other.toNat ++ second) :
    letter = other ∧ first = second := by
  have valid : ∀ letter : Char, letter.toNat < 0xd800 ∨ 0xdfff < letter.toNat ∧ letter.toNat < 0x110000 :=
    fun letter => letter.valid
  have letterValid := valid letter
  have otherValid := valid other
  suffices codes : letter.toNat = other.toNat by
    refine ⟨Char.toNat_inj.mp codes, ?_⟩
    rw [codes] at same
    exact List.append_cancel_left same
  rw [unitsOf, unitsOf] at same
  split at same <;> split at same <;> simp only [List.cons_append, List.nil_append,
    List.cons.injEq] at same <;> omega

/-- The units of a text tell what it is. -/
theorem toUnits_inj {first second : Text} (same : first.toUnits = second.toUnits) : first = second := by
  induction first generalizing second with
  | nil =>
      cases second with
      | nil => rfl
      | cons letter second =>
          exact absurd (List.append_eq_nil_iff.mp same.symm).1 (unitsOf_ne_nil letter.toNat)
  | cons letter first inductionHypothesis =>
      cases second with
      | nil => exact absurd (List.append_eq_nil_iff.mp same).1 (unitsOf_ne_nil letter.toNat)
      | cons other second =>
          obtain ⟨rfl, behind⟩ := unitsOf_append_inj same
          rw [inductionHypothesis behind]

end ImportMeter.Text
