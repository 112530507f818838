/-
This file proves that percent escapes name the characters that they were written for.
-/
import ImportMeter.Proofs.Text.Utf8
import ImportMeter.Text.Percent

namespace ImportMeter.Text

variable {text : Text}

/-- A byte other than the percent sign is no escape. -/
theorem unescapeBytes_cons {byte : UInt8} (bytes : List UInt8) (plain : byte ≠ 0x25) :
    unescapeBytes (byte :: bytes) = byte :: unescapeBytes bytes := by
  match bytes with
  | [] => rfl
  | [_] => rfl
  | _ :: _ :: _ => rw [unescapeBytes, if_neg plain]

theorem unescapeBytes_append {front : List UInt8} (bytes : List UInt8)
    (plain : ∀ byte ∈ front, byte ≠ 0x25) :
    unescapeBytes (front ++ bytes) = front ++ unescapeBytes bytes := by
  induction front with
  | nil => rfl
  | cons byte front inductionHypothesis =>
      obtain ⟨isPlain, plain⟩ := List.forall_mem_cons.mp plain
      rw [List.cons_append, unescapeBytes_cons _ isPlain, inductionHypothesis plain, List.cons_append]

/-- Only the percent sign begins an escape. -/
theorem unescapeBytes_letter {letter : Char} (bytes : List UInt8) (plain : letter ≠ '%') :
    unescapeBytes (String.utf8EncodeChar letter ++ bytes) =
      String.utf8EncodeChar letter ++ unescapeBytes bytes := by
  refine unescapeBytes_append bytes fun byte member isPercent => ?_
  have isValue : byte.toNat = 0x25 := congrArg UInt8.toNat isPercent
  rcases toNat_of_mem_utf8EncodeChar member with isCode | high
  · exact plain (Char.ext (UInt32.toNat_inj.mp (isCode.symm.trans isValue)))
  · rw [isValue] at high
    exact absurd high (by decide)

/-- A letter that begins no escape is decoded to itself. -/
theorem percentDecode_cons {letter : Char} (plain : letter ≠ '%') (text : Text) :
    percentDecode (letter :: text) = letter :: text.percentDecode := by
  have bytes : toBytes (letter :: text) = String.utf8EncodeChar letter ++ text.toBytes := rfl
  rw [percentDecode, bytes, unescapeBytes_letter _ plain, ofBytesLossy, readBytes_utf8EncodeChar,
    List.map_cons]
  rfl

/-- How a letter is written where a percent sign, a query or a fragment would be read. -/
def escapeLetter : Char → Text
  | '%' => ['%', '2', '5']
  | '?' => ['%', '3', 'F']
  | '#' => ['%', '2', '3']
  | letter => [letter]

/-- A text with escapes in the place of the letters that mean something else in a URL. -/
def escaped (text : Text) : Text := text.flatMap escapeLetter

/-- A text that holds none of these letters is written as it is. -/
theorem escaped_of_notMem (noPercent : '%' ∉ text) (noQuery : '?' ∉ text) (noFragment : '#' ∉ text) :
    escaped text = text := by
  have kept : ∀ letter ∈ text, escapeLetter letter = [letter] := by
    intro letter member
    rw [escapeLetter.eq_def]
    split
    · exact absurd member noPercent
    · exact absurd member noQuery
    · exact absurd member noFragment
    · rfl
  rw [escaped, List.flatMap_def, List.map_congr_left kept, ← List.flatMap_def, List.flatMap_singleton']

end ImportMeter.Text
