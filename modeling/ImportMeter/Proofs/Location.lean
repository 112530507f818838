/-
This file proves that a file URL names the path that it was written for.
-/
import ImportMeter.Proofs.Text
import ImportMeter.Proofs.Text.Encoding
import ImportMeter.Specifier

namespace ImportMeter

namespace Specifier

variable {text rest encoded suffix : Text}

/-- A query or a fragment ends the part of a URL that names a path. -/
theorem withoutQuery_append (plain : ∀ letter ∈ text, letter ≠ '?' ∧ letter ≠ '#')
    (query : ∀ letter, suffix.head? = some letter → letter = '?' ∨ letter = '#') :
    withoutQuery (text ++ suffix) = text := by
  have kept : ∀ letter ∈ text, (decide (letter ≠ '?') && decide (letter ≠ '#')) = true := by
    intro letter member
    rw [Bool.and_eq_true, decide_eq_true_eq, decide_eq_true_eq]
    exact plain letter member
  rw [withoutQuery, List.takeWhile_append_of_pos kept]
  cases suffix with
  | nil => exact List.append_nil text
  | cons letter suffix =>
      rcases query letter rfl with rfl | rfl <;> exact List.append_nil text

/-- What a file URL without a host names. -/
theorem locationPath?_fileScheme (location : Text) (rooted : location.head? = some '/')
    (stillRooted : (withoutQuery location).head? = some '/') :
    locationPath? (fileScheme ++ location) = some ⟨(withoutQuery location).percentDecode⟩ := by
  have noHost : location.dropFront? localHost = none := by
    obtain ⟨behind, rfl⟩ := List.head?_eq_some_iff.mp rooted
    rfl
  rw [locationPath?, Text.dropFront?_eq_some.mpr rfl]
  simp only [noHost, Option.getD_none, stillRooted, if_true]

/-- The local host names the same path as no host. -/
theorem locationPath?_localHost (location : Text) (rooted : location.head? = some '/') :
    locationPath? (fileScheme ++ localHost ++ location) = locationPath? (fileScheme ++ location) := by
  have noHost : location.dropFront? localHost = none := by
    obtain ⟨behind, rfl⟩ := List.head?_eq_some_iff.mp rooted
    rfl
  rw [List.append_assoc, locationPath?, locationPath?, Text.dropFront?_eq_some.mpr rfl,
    Text.dropFront?_eq_some.mpr rfl]
  simp only [noHost, Option.getD_none, Text.dropFront?_eq_some.mpr rfl, Option.getD_some]

/-- A file URL names the path that it was written for, however the letters of that path are written and
whatever query or fragment follows. -/
theorem locationPath?_encodes (encodes : Text.Encodes rest encoded)
    (query : ∀ letter, suffix.head? = some letter → letter = '?' ∨ letter = '#') :
    locationPath? (fileScheme ++ '/' :: encoded ++ suffix) = some ⟨'/' :: rest⟩ ∧
      locationPath? (fileScheme ++ localHost ++ '/' :: encoded ++ suffix) = some ⟨'/' :: rest⟩ := by
  have plain : ∀ letter ∈ '/' :: encoded, letter ≠ '?' ∧ letter ≠ '#' :=
    List.forall_mem_cons.mpr ⟨by decide, encodes.plain⟩
  have named := withoutQuery_append plain query
  have read : locationPath? (fileScheme ++ ('/' :: encoded ++ suffix)) = some ⟨'/' :: rest⟩ := by
    rw [locationPath?_fileScheme _ rfl (by rw [named]; rfl), named,
      Text.percentDecode_cons (by decide), encodes.percentDecode]
  exact ⟨List.append_assoc _ _ _ ▸ read,
    List.append_assoc _ _ _ ▸ (locationPath?_localHost _ rfl).trans read⟩

theorem locationPath?_encodes_mixedEscapes :
    locationPath? (fileScheme ++ '/' :: "é/%c3%A9%E2%82%ac%3f".toList ++ "?v=1".toList) =
        some ⟨'/' :: "é/é€?".toList⟩ ∧
      locationPath? (fileScheme ++ localHost ++ '/' :: "é/%c3%A9%E2%82%ac%3f".toList ++ "?v=1".toList) =
        some ⟨'/' :: "é/é€?".toList⟩ := by
  have acute : Text.EncodesLetter 'é' "%c3%A9".toList :=
    @Text.EncodesLetter.escaped 'é' ["%c3".toList, "%A9".toList]
      (.cons ⟨'c', '3', rfl, by decide, by decide⟩ (.cons ⟨'A', '9', rfl, by decide, by decide⟩ .nil))
  have euro : Text.EncodesLetter '€' "%E2%82%ac".toList :=
    @Text.EncodesLetter.escaped '€' ["%E2".toList, "%82".toList, "%ac".toList]
      (.cons ⟨'E', '2', rfl, by decide, by decide⟩ (.cons ⟨'8', '2', rfl, by decide, by decide⟩
        (.cons ⟨'a', 'c', rfl, by decide, by decide⟩ .nil)))
  have mark : Text.EncodesLetter '?' "%3f".toList := .ofByte rfl ⟨'3', 'f', rfl, by decide, by decide⟩
  have plain : ∀ letter : Char, letter ≠ '%' ∧ letter ≠ '?' ∧ letter ≠ '#' →
      Text.EncodesLetter letter [letter] := fun _ other => .kept other.1 other.2.1 other.2.2
  exact locationPath?_encodes
    ⟨_, .cons (plain 'é' (by decide)) (.cons (plain '/' (by decide))
      (.cons acute (.cons euro (.cons mark .nil)))), rfl⟩
    fun _ isFirst => .inl (Option.some.inj isFirst).symm

end Specifier

end ImportMeter
