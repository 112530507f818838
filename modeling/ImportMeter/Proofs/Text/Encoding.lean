/-
This file proves that a text is decoded from every way to write its letters, as they are or as the
escapes of their bytes.
-/
import Mathlib.Data.List.Forall2
import ImportMeter.Proofs.Text.Escape

namespace ImportMeter.Text

variable {letter digit : Char} {number : Nat} {text encoded piece : Text}

/-- The ways to write a letter in a URL: as it is, unless it would mean something else there, or as the
escapes of all its bytes. -/
inductive EncodesLetter (letter : Char) : Text → Prop where
  | kept (noPercent : letter ≠ '%') (noQuery : letter ≠ '?') (noFragment : letter ≠ '#') :
      EncodesLetter letter [letter]
  | escaped {escapes : List Text}
      (areEscapes : List.Forall₂ IsEscapeOf (String.utf8EncodeChar letter) escapes) :
      EncodesLetter letter escapes.flatten

/-- A text is written letter by letter. -/
def Encodes (text encoded : Text) : Prop :=
  ∃ pieces, List.Forall₂ EncodesLetter text pieces ∧ encoded = pieces.flatten

/-- The escapes of some bytes are decoded to them. -/
theorem unescapeBytes_escapes {bytes : List UInt8} {escapes : List Text}
    (areEscapes : List.Forall₂ IsEscapeOf bytes escapes) (behind : List UInt8) :
    unescapeBytes (toBytes escapes.flatten ++ behind) = bytes ++ unescapeBytes behind := by
  induction areEscapes with
  | nil => rfl
  | cons isEscape _ inductionHypothesis =>
      rw [List.flatten_cons, toBytes_append, List.append_assoc, isEscape.unescapeBytes,
        inductionHypothesis, List.cons_append]

/-- However a letter is written, its bytes are read. -/
theorem EncodesLetter.unescapeBytes (encodes : EncodesLetter letter piece) (behind : List UInt8) :
    Text.unescapeBytes (toBytes piece ++ behind) =
      String.utf8EncodeChar letter ++ Text.unescapeBytes behind := by
  cases encodes with
  | kept noPercent =>
      have single : toBytes [letter] = String.utf8EncodeChar letter := List.flatMap_singleton _ _
      rw [single, unescapeBytes_letter _ noPercent]
  | escaped areEscapes => exact unescapeBytes_escapes areEscapes behind

/-- However a text is written, it is decoded. -/
theorem Encodes.percentDecode (encodes : Encodes text encoded) : encoded.percentDecode = text := by
  obtain ⟨pieces, areEncoded, rfl⟩ := encodes
  have decoded : unescapeBytes (toBytes pieces.flatten) = text.toBytes := by
    induction areEncoded with
    | nil => rfl
    | cons encodes _ inductionHypothesis =>
        rw [List.flatten_cons, toBytes_append, encodes.unescapeBytes, inductionHypothesis]
        rfl
  rw [Text.percentDecode, decoded, ofBytesLossy_toBytes]

theorem IsDigitOf.plain (isDigit : IsDigitOf digit number) : digit ≠ '?' ∧ digit ≠ '#' := by
  have every : ∀ row ∈ digitRows, '?' ∉ row ∧ '#' ∉ row := by decide
  obtain ⟨row, isRow, found⟩ := isDigit
  obtain ⟨noQuery, noFragment⟩ := every row isRow
  have member := List.mem_of_getElem? found
  exact ⟨fun same => noQuery (same ▸ member), fun same => noFragment (same ▸ member)⟩

theorem IsEscapeOf.plain {byte : UInt8} (isEscape : IsEscapeOf byte piece) :
    ∀ letter ∈ piece, letter ≠ '?' ∧ letter ≠ '#' := by
  obtain ⟨high, low, rfl, isHigh, isLow⟩ := isEscape
  exact List.forall_mem_cons.mpr ⟨by decide, List.forall_mem_cons.mpr ⟨isHigh.plain,
    List.forall_mem_singleton.mpr isLow.plain⟩⟩

/-- What holds for the letters of each part holds for the letters of all parts. -/
theorem forall_mem_flatten {α : Type} {relation : α → Text → Prop} {items : List α}
    {pieces : List Text} {holds : Char → Prop} (related : List.Forall₂ relation items pieces)
    (each : ∀ item piece, relation item piece → ∀ letter ∈ piece, holds letter) :
    ∀ letter ∈ pieces.flatten, holds letter := by
  induction related with
  | nil => exact fun letter member => absurd member List.not_mem_nil
  | cons isRelated _ inductionHypothesis =>
      intro letter member
      rcases List.mem_append.mp (List.flatten_cons ▸ member) with inFirst | inRest
      · exact each _ _ isRelated letter inFirst
      · exact inductionHypothesis letter inRest

theorem EncodesLetter.plain (encodes : EncodesLetter letter piece) :
    ∀ letter ∈ piece, letter ≠ '?' ∧ letter ≠ '#' := by
  cases encodes with
  | kept _ noQuery noFragment => exact List.forall_mem_singleton.mpr ⟨noQuery, noFragment⟩
  | escaped areEscapes => exact forall_mem_flatten areEscapes fun _ _ isEscape => isEscape.plain

/-- Neither a query nor a fragment begins in an encoded text. -/
theorem Encodes.plain (encodes : Encodes text encoded) :
    ∀ letter ∈ encoded, letter ≠ '?' ∧ letter ≠ '#' := by
  obtain ⟨pieces, areEncoded, rfl⟩ := encodes
  exact forall_mem_flatten areEncoded fun _ _ encodes => encodes.plain

/-- A letter of a single byte is written with one escape. -/
theorem EncodesLetter.ofByte {byte : UInt8} (single : String.utf8EncodeChar letter = [byte])
    (isEscape : IsEscapeOf byte piece) : EncodesLetter letter piece := by
  have areEscapes : List.Forall₂ IsEscapeOf (String.utf8EncodeChar letter) [piece] :=
    single ▸ .cons isEscape .nil
  have escaped := EncodesLetter.escaped areEscapes
  rwa [List.flatten_singleton] at escaped

/-- One way to write a text is with the escapes of the letters that mean something else in a URL. -/
theorem encodes_escaped (text : Text) : Encodes text (escaped text) := by
  refine ⟨text.map escapeLetter, List.forall₂_map_right_iff.mpr (List.forall₂_same.mpr ?_), rfl⟩
  intro letter _
  rw [escapeLetter.eq_def]
  split
  · exact .ofByte rfl ⟨'2', '5', rfl, by decide, by decide⟩
  · exact .ofByte rfl ⟨'3', 'F', rfl, by decide, by decide⟩
  · exact .ofByte rfl ⟨'2', '3', rfl, by decide, by decide⟩
  next noPercent noQuery noFragment => exact .kept noPercent noQuery noFragment

end ImportMeter.Text
