/-
This file proves that bytes are read as the text that they spell, with a replacement character for each
malformed piece.
-/
import Mathlib.Data.List.Infix
import Mathlib.Tactic.IntervalCases
import ImportMeter.Text.Utf8

namespace ImportMeter.Text

/-- True for bytes with which a character begins. -/
def Begins (piece : List UInt8) : Prop := ∃ letter, piece <+: String.utf8EncodeChar letter

/-- Bytes that spell no character: as many as could begin one, or a single byte where none could. -/
structure IsMalformed (piece behind : List UInt8) : Prop where
  filled : piece ≠ []
  noLetter : ∀ letter, String.utf8EncodeChar letter ≠ piece
  begins : Begins piece ∨ piece.length = 1
  longest : ∀ next, behind.head? = some next → ¬ Begins (piece ++ [next])

/-- The text that bytes spell, with a replacement character for each malformed piece. -/
inductive Spells : List UInt8 → Text → Prop where
  | nil : Spells [] []
  | letter (letter : Char) {bytes : List UInt8} {text : Text} (behind : Spells bytes text) :
      Spells (String.utf8EncodeChar letter ++ bytes) (letter :: text)
  | malformed {piece bytes : List UInt8} {text : Text} (isMalformed : IsMalformed piece bytes)
      (behind : Spells bytes text) :
      Spells (piece ++ bytes) (replacement :: text)

variable {piece bytes : List UInt8} {byte low high : UInt8} {text : Text}
  {code value missing next third fourth : Nat}

/-- What holds for all the numbers of a byte holds for all bytes. -/
theorem forall_byte {motive : UInt8 → Prop} (every : ∀ code < 256, motive (UInt8.ofNat code))
    (byte : UInt8) : motive byte := by
  have holds := every byte.toNat byte.toNat_lt
  rwa [UInt8.ofNat_toNat] at holds

/-- The byte that begins a character of several bytes. -/
theorem readBytes_lead {pending : Pending} (high : 0x80 ≤ value) (isByte : value < 256)
    (announces : Pending.ofLead? (UInt8.ofNat value) = some pending) :
    readBytes none (UInt8.ofNat value :: bytes) = readBytes (some pending) bytes := by
  have notShort : ¬ UInt8.ofNat value < 0x80 := by
    rw [UInt8.not_lt, UInt8.le_iff_toNat_le, UInt8.toNat_ofNat_of_lt' isByte]
    exact high
  rw [readBytes, leadByte, if_neg notShort, announces]
  rfl

/-- A byte that goes on with a character carries six bits of it. -/
theorem readBytes_next {low high : UInt8} (bits : next < 64) (atLeast : low.toNat ≤ next + 128)
    (atMost : next + 128 ≤ high.toNat) :
    readBytes (some ⟨missing + 1, value, low, high⟩) (UInt8.ofNat (next + 128) :: bytes) =
      if missing = 0 then some (Char.ofNat (value * 64 + next)) :: readBytes none bytes
      else readBytes (some ⟨missing, value * 64 + next, 0x80, 0xbf⟩) bytes := by
  have isByte : (UInt8.ofNat (next + 128)).toNat = next + 128 :=
    UInt8.toNat_ofNat_of_lt' (by change _ < 256; omega)
  have inside : (low ≤ UInt8.ofNat (next + 128) && UInt8.ofNat (next + 128) ≤ high) = true := by
    simp only [Bool.and_eq_true, decide_eq_true_eq, UInt8.le_iff_toNat_le, isByte, atLeast, atMost,
      and_self]
  have carried : next + 128 - 0x80 = next := Nat.add_sub_cancel next 128
  rw [readBytes, if_pos inside, isByte, carried]
  cases missing <;> rfl

/-- A byte that goes on behind the second byte of a character. -/
theorem readBytes_tail (bits : next < 64) :
    readBytes (some ⟨missing + 1, value, 0x80, 0xbf⟩) (UInt8.ofNat (next + 128) :: bytes) =
      if missing = 0 then some (Char.ofNat (value * 64 + next)) :: readBytes none bytes
      else readBytes (some ⟨missing, value * 64 + next, 0x80, 0xbf⟩) bytes :=
  readBytes_next bits (Nat.le_add_left _ _) (by change _ ≤ 191; omega)

/-- What a byte announces that begins a character of two bytes. -/
theorem ofLead?_two (low : 2 ≤ value) (high : value < 32) :
    Pending.ofLead? (UInt8.ofNat (value + 192)) = some ⟨1, value, 0x80, 0xbf⟩ := by
  interval_cases value <;> rfl

/-- What a byte announces that begins a character of three bytes. -/
theorem ofLead?_three (high : value < 16) :
    Pending.ofLead? (UInt8.ofNat (value + 224)) =
      some ⟨2, value, if value = 0 then 0xa0 else 0x80, if value = 13 then 0x9f else 0xbf⟩ := by
  interval_cases value <;> rfl

/-- What a byte announces that begins a character of four bytes. -/
theorem ofLead?_four (high : value < 5) :
    Pending.ofLead? (UInt8.ofNat (value + 240)) =
      some ⟨3, value, if value = 0 then 0x90 else 0x80, if value = 4 then 0x8f else 0xbf⟩ := by
  interval_cases value <;> rfl

/-- A byte that cannot go on with a character ends a malformed piece, and is read anew. -/
theorem readBytes_outside {pending : Pending}
    (outside : ¬ (pending.low ≤ byte && byte ≤ pending.high) = true) :
    readBytes (some pending) (byte :: bytes) = none :: readBytes none (byte :: bytes) := by
  simp only [readBytes, if_neg outside]
  rfl

theorem Begins.front (front behind : List UInt8) (begins : Begins (front ++ behind)) :
    Begins front := by
  obtain ⟨letter, isPrefix⟩ := begins
  exact ⟨letter, (List.prefix_append front behind).trans isPrefix⟩

theorem exists_letter (code : Nat) (valid : code.isValidChar) : ∃ letter : Char, letter.val.toNat = code :=
  ⟨Char.ofNatAux code valid, rfl⟩

/-- Two bytes that make up a character. -/
theorem begins_two (isLead : 2 ≤ value) (short : value < 32) (bits : next < 64) :
    Begins [UInt8.ofNat (value + 192), UInt8.ofNat (next + 128)] := by
  obtain ⟨letter, isCode⟩ := exists_letter (value * 64 + next) (.inl (by omega))
  refine ⟨letter, ?_⟩
  have lead : (value * 64 + next) / 64 % 32 = value := by omega
  have tail : (value * 64 + next) % 64 = next := by omega
  simp only [String.utf8EncodeChar, isCode]
  rw [if_neg (by omega), if_pos (by omega), lead, tail]

/-- Three bytes that make up a character. -/
theorem begins_three (short : value < 16) (bits : next < 64) (moreBits : third < 64)
    (notOverlong : value = 0 → 32 ≤ next) (noSurrogate : value = 13 → next < 32) :
    Begins [UInt8.ofNat (value + 224), UInt8.ofNat (next + 128), UInt8.ofNat (third + 128)] := by
  obtain ⟨letter, isCode⟩ := exists_letter ((value * 64 + next) * 64 + third) (by
    rw [Nat.isValidChar]
    omega)
  refine ⟨letter, ?_⟩
  have first : ((value * 64 + next) * 64 + third) / 4096 % 16 = value := by omega
  have second : ((value * 64 + next) * 64 + third) / 64 % 64 = next := by omega
  have last : ((value * 64 + next) * 64 + third) % 64 = third := by omega
  simp only [String.utf8EncodeChar, isCode]
  rw [if_neg (by omega), if_neg (by omega), if_pos (by omega), first, second, last]

/-- Four bytes that make up a character. -/
theorem begins_four (short : value < 5) (bits : next < 64) (moreBits : third < 64)
    (lastBits : fourth < 64) (notOverlong : value = 0 → 16 ≤ next) (notBeyond : value = 4 → next < 16) :
    Begins [UInt8.ofNat (value + 240), UInt8.ofNat (next + 128), UInt8.ofNat (third + 128),
      UInt8.ofNat (fourth + 128)] := by
  obtain ⟨letter, isCode⟩ :=
    exists_letter (((value * 64 + next) * 64 + third) * 64 + fourth) (by
      rw [Nat.isValidChar]
      omega)
  refine ⟨letter, ?_⟩
  have first : (((value * 64 + next) * 64 + third) * 64 + fourth) / 262144 % 8 = value := by omega
  have second : (((value * 64 + next) * 64 + third) * 64 + fourth) / 4096 % 64 = next := by omega
  have inner : (((value * 64 + next) * 64 + third) * 64 + fourth) / 64 % 64 = third := by omega
  have last : (((value * 64 + next) * 64 + third) * 64 + fourth) % 64 = fourth := by omega
  simp only [String.utf8EncodeChar, isCode]
  rw [if_neg (by omega), if_neg (by omega), if_neg (by omega), first, second, inner, last]

/-- A byte that may go on with a character carries six bits of it. -/
theorem exists_bits (atLeast : 0x80 ≤ low) (atMost : high ≤ 0xbf) (above : low ≤ byte)
    (below : byte ≤ high) :
    ∃ bits < 64, byte = UInt8.ofNat (bits + 128) ∧ low.toNat ≤ bits + 128 ∧
      bits + 128 ≤ high.toNat := by
  rw [UInt8.le_iff_toNat_le] at atLeast atMost above below
  have atLeast : 128 ≤ low.toNat := atLeast
  have atMost : high.toNat ≤ 191 := atMost
  have same : byte.toNat - 128 + 128 = byte.toNat := by omega
  refine ⟨byte.toNat - 128, by omega, ?_, by omega, by omega⟩
  rw [same, UInt8.ofNat_toNat]

/-- Where the reader stands behind bytes that begin a character without being one: it has read none yet,
and every byte that it lets go on could follow. -/
structure Leaves (piece : List UInt8) (pending : Pending) : Prop where
  reads : ∀ bytes, readBytes none (piece ++ bytes) = readBytes (some pending) bytes
  goesOn : ∀ next, pending.low ≤ next → next ≤ pending.high → Begins (piece ++ [next])

theorem leaves_two (isLead : 2 ≤ value) (short : value < 32) :
    Leaves [UInt8.ofNat (value + 192)] ⟨1, value, 0x80, 0xbf⟩ where
  reads bytes := readBytes_lead (by omega) (by omega) (ofLead?_two isLead short)
  goesOn byte above below := by
    obtain ⟨bits, inside, rfl, _⟩ := exists_bits (UInt8.le_refl _) (UInt8.le_refl _) above below
    exact begins_two isLead short inside

theorem leaves_three (short : value < 16) :
    Leaves [UInt8.ofNat (value + 224)]
      ⟨2, value, if value = 0 then 0xa0 else 0x80, if value = 13 then 0x9f else 0xbf⟩ where
  reads bytes := readBytes_lead (by omega) (by omega) (ofLead?_three short)
  goesOn byte above below := by
    obtain ⟨bits, inside, rfl, low, high⟩ :=
      exists_bits (by dsimp only; split <;> decide) (by dsimp only; split <;> decide) above below
    have notOverlong : value = 0 → 32 ≤ bits := by
      rintro rfl
      have low : 160 ≤ bits + 128 := low
      omega
    have noSurrogate : value = 13 → bits < 32 := by
      rintro rfl
      have high : bits + 128 ≤ 159 := high
      omega
    exact (begins_three short inside (Nat.zero_lt_succ 63) notOverlong noSurrogate).front [_, _] [_]

theorem leaves_four (short : value < 5) :
    Leaves [UInt8.ofNat (value + 240)]
      ⟨3, value, if value = 0 then 0x90 else 0x80, if value = 4 then 0x8f else 0xbf⟩ where
  reads bytes := readBytes_lead (by omega) (by omega) (ofLead?_four short)
  goesOn byte above below := by
    obtain ⟨bits, inside, rfl, low, high⟩ :=
      exists_bits (by dsimp only; split <;> decide) (by dsimp only; split <;> decide) above below
    have notOverlong : value = 0 → 16 ≤ bits := by
      rintro rfl
      have low : 144 ≤ bits + 128 := low
      omega
    have notBeyond : value = 4 → bits < 16 := by
      rintro rfl
      have high : bits + 128 ≤ 143 := high
      omega
    exact (begins_four short inside (Nat.zero_lt_succ 63) (Nat.zero_lt_succ 63) notOverlong
      notBeyond).front [_, _] [_, _]

/-- One more byte that goes on with the character without ending it. -/
theorem Leaves.step {missing bits : Nat} (leaves : Leaves piece ⟨missing + 2, value, low, high⟩)
    (inside : bits < 64) (atLeast : low.toNat ≤ bits + 128) (atMost : bits + 128 ≤ high.toNat)
    (goesOn : ∀ further < 64,
      Begins (piece ++ [UInt8.ofNat (bits + 128)] ++ [UInt8.ofNat (further + 128)])) :
    Leaves (piece ++ [UInt8.ofNat (bits + 128)]) ⟨missing + 1, value * 64 + bits, 0x80, 0xbf⟩ where
  reads bytes := by
    rw [List.append_assoc, leaves.reads, List.singleton_append, readBytes_next inside atLeast atMost,
      if_neg (Nat.succ_ne_zero missing)]
  goesOn byte above below := by
    obtain ⟨further, small, rfl, _⟩ := exists_bits (UInt8.le_refl _) (UInt8.le_refl _) above below
    exact goesOn further small

theorem leaves_three_two (short : value < 16) (bits : next < 64)
    (notOverlong : value = 0 → 32 ≤ next) (noSurrogate : value = 13 → next < 32) :
    Leaves [UInt8.ofNat (value + 224), UInt8.ofNat (next + 128)] ⟨1, value * 64 + next, 0x80, 0xbf⟩ := by
  refine (leaves_three short).step bits ?_ ?_ fun further inside =>
    begins_three short bits inside notOverlong noSurrogate
  · split
    next zero => exact Nat.add_le_add_right (notOverlong zero) 128
    next => exact Nat.le_add_left _ _
  · split
    next surrogate => exact Nat.add_le_add_right (Nat.le_of_lt_succ (noSurrogate surrogate)) 128
    next => exact Nat.add_le_add_right (Nat.le_of_lt_succ bits) 128

theorem leaves_four_two (short : value < 5) (bits : next < 64) (notOverlong : value = 0 → 16 ≤ next)
    (notBeyond : value = 4 → next < 16) :
    Leaves [UInt8.ofNat (value + 240), UInt8.ofNat (next + 128)] ⟨2, value * 64 + next, 0x80, 0xbf⟩ := by
  refine (leaves_four short).step bits ?_ ?_ fun further inside =>
    (begins_four short bits inside (Nat.zero_lt_succ 63) notOverlong notBeyond).front [_, _, _] [_]
  · split
    next zero => exact Nat.add_le_add_right (notOverlong zero) 128
    next => exact Nat.le_add_left _ _
  · split
    next beyond => exact Nat.add_le_add_right (Nat.le_of_lt_succ (notBeyond beyond)) 128
    next => exact Nat.add_le_add_right (Nat.le_of_lt_succ bits) 128

theorem leaves_four_three (short : value < 5) (bits : next < 64) (moreBits : third < 64)
    (notOverlong : value = 0 → 16 ≤ next) (notBeyond : value = 4 → next < 16) :
    Leaves [UInt8.ofNat (value + 240), UInt8.ofNat (next + 128), UInt8.ofNat (third + 128)]
      ⟨1, (value * 64 + next) * 64 + third, 0x80, 0xbf⟩ :=
  (leaves_four_two short bits notOverlong notBeyond).step moreBits (Nat.le_add_left _ _)
    (Nat.add_le_add_right (Nat.le_of_lt_succ moreBits) 128)
    fun _ inside => begins_four short bits moreBits inside notOverlong notBeyond

/-- The reader waits behind the first bytes of a character. -/
theorem exists_leaves_take (letter : Char) {count : Nat} (filled : count ≠ 0)
    (left : count < (String.utf8EncodeChar letter).length) :
    ∃ pending, Leaves ((String.utf8EncodeChar letter).take count) pending := by
  have valid : letter.val.toNat < 0xd800 ∨ 0xdfff < letter.val.toNat ∧ letter.val.toNat < 0x110000 :=
    letter.valid
  revert left
  simp only [String.utf8EncodeChar]
  generalize letter.val.toNat = code at valid ⊢
  split
  next short => exact fun left => absurd (Nat.lt_one_iff.mp left) filled
  split
  next long short =>
    intro left
    obtain rfl : count = 1 := by
      change count < 2 at left
      omega
    exact ⟨_, leaves_two (by omega) (by omega)⟩
  split
  next long short =>
    intro left
    obtain rfl | rfl : count = 1 ∨ count = 2 := by
      change count < 3 at left
      omega
    · exact ⟨_, leaves_three (by omega)⟩
    · exact ⟨_, leaves_three_two (by omega) (by omega) (by omega) (by omega)⟩
  next long =>
    intro left
    obtain rfl | rfl | rfl : count = 1 ∨ count = 2 ∨ count = 3 := by
      change count < 4 at left
      omega
    · exact ⟨_, leaves_four (by omega)⟩
    · exact ⟨_, leaves_four_two (by omega) (by omega) (by omega) (by omega)⟩
    · exact ⟨_, leaves_four_three (by omega) (by omega) (by omega) (by omega) (by omega)⟩

/-- The reader waits behind bytes that begin a character without being one. -/
theorem exists_leaves (begins : Begins piece) (filled : piece ≠ [])
    (noLetter : ∀ letter, String.utf8EncodeChar letter ≠ piece) :
    ∃ pending, Leaves piece pending := by
  obtain ⟨letter, isPrefix⟩ := begins
  have left : piece.length < (String.utf8EncodeChar letter).length :=
    Nat.lt_of_le_of_ne isPrefix.length_le fun same =>
      noLetter letter (isPrefix.eq_of_length same).symm
  rw [List.prefix_iff_eq_take.mp isPrefix]
  exact exists_leaves_take letter (fun none => filled (List.length_eq_zero_iff.mp none)) left

/-- The bytes of a character are read as that character. -/
theorem readBytes_utf8EncodeChar (letter : Char) (bytes : List UInt8) :
    readBytes none (String.utf8EncodeChar letter ++ bytes) =
      some letter :: readBytes none bytes := by
  have valid : letter.val.toNat < 0xd800 ∨ 0xdfff < letter.val.toNat ∧ letter.val.toNat < 0x110000 :=
    letter.valid
  have same : ∀ value, value = letter.val.toNat → Char.ofNat value = letter :=
    fun value isValue => isValue ▸ Char.ofNat_toNat letter
  simp only [String.utf8EncodeChar]
  generalize letter.val.toNat = code at valid same ⊢
  split
  next short =>
    have isShort : UInt8.ofNat code < 0x80 := by
      rw [UInt8.lt_iff_toNat_lt, UInt8.toNat_ofNat_of_lt' (by change _ < 256; omega)]
      exact Nat.lt_succ_of_le short
    rw [List.singleton_append, readBytes, leadByte, if_pos isShort,
      UInt8.toNat_ofNat_of_lt' (by change _ < 256; omega), same code rfl]
    rfl
  split
  next long short =>
    refine ((leaves_two (by omega) (by omega)).reads (_ :: bytes)).trans ?_
    rw [readBytes_tail (by omega), if_pos rfl, same _ (by omega)]
  split
  next long short =>
    refine ((leaves_three_two (by omega) (by omega) (by omega) (by omega)).reads (_ :: bytes)).trans ?_
    rw [readBytes_tail (by omega), if_pos rfl, same _ (by omega)]
  next long =>
    refine ((leaves_four_three (by omega) (by omega) (by omega) (by omega) (by omega)).reads
      (_ :: bytes)).trans ?_
    rw [readBytes_tail (by omega), if_pos rfl, same _ (by omega)]

/-- The bytes of a text are read as that text. -/
theorem ofBytesLossy_toBytes (text : Text) : ofBytesLossy text.toBytes = text := by
  induction text with
  | nil => rfl
  | cons letter text inductionHypothesis =>
      rw [ofBytesLossy] at inductionHypothesis ⊢
      rw [toBytes, List.flatMap_cons, readBytes_utf8EncodeChar, List.map_cons, ← toBytes,
        inductionHypothesis]
      rfl

/-- A character is a single byte with its code, or else all its bytes lie above the ASCII codes. -/
theorem toNat_of_mem_utf8EncodeChar {letter : Char} {byte : UInt8}
    (member : byte ∈ String.utf8EncodeChar letter) :
    byte.toNat = letter.val.toNat ∨ 0x80 ≤ byte.toNat := by
  have above : ∀ code, 0x80 ≤ code → code < 256 → 0x80 ≤ (UInt8.ofNat code).toNat :=
    fun code high isByte => by rwa [UInt8.toNat_ofNat_of_lt' isByte]
  have valid : letter.val.toNat < 0x110000 := by
    have := letter.valid
    rcases this with low | ⟨_, high⟩
    · exact Nat.lt_trans low (by decide)
    · exact high
  simp only [String.utf8EncodeChar] at member
  generalize letter.val.toNat = code at member valid ⊢
  split at member
  next short =>
    rw [List.mem_singleton.mp member, UInt8.toNat_ofNat_of_lt' (by change _ < 256; omega)]
    exact .inl rfl
  split at member
  next =>
    simp only [List.mem_cons, List.not_mem_nil, or_false] at member
    rcases member with rfl | rfl <;> exact .inr (above _ (by omega) (by omega))
  split at member
  next =>
    simp only [List.mem_cons, List.not_mem_nil, or_false] at member
    rcases member with rfl | rfl | rfl <;> exact .inr (above _ (by omega) (by omega))
  next =>
    simp only [List.mem_cons, List.not_mem_nil, or_false] at member
    rcases member with rfl | rfl | rfl | rfl <;> exact .inr (above _ (by omega) (by omega))

/-- A byte is read as malformed unless a character begins with it. -/
theorem leadByte_of_not_begins (noLetter : ¬ Begins [byte]) : leadByte byte = ([none], none) := by
  have announced : ∀ code < 256, 128 ≤ code → (Pending.ofLead? (UInt8.ofNat code)).isSome →
      194 ≤ code ∧ code < 224 ∨ 224 ≤ code ∧ code < 240 ∨ 240 ≤ code ∧ code < 245 := by
    decide +kernel
  induction byte using forall_byte with
  | every code isByte =>
    have long : 128 ≤ code := by
      by_contra short
      obtain ⟨letter, isCode⟩ := exists_letter code (.inl (by omega))
      refine noLetter ⟨letter, ?_⟩
      rw [String.utf8EncodeChar, isCode, if_pos (by omega)]
    have notShort : ¬ UInt8.ofNat code < 0x80 := by
      rw [UInt8.not_lt, UInt8.le_iff_toNat_le, UInt8.toNat_ofNat_of_lt' isByte]
      exact long
    have noLead : Pending.ofLead? (UInt8.ofNat code) = none := by
      by_contra isLead
      have zero : 0 < 64 := Nat.zero_lt_succ 63
      rcases announced code isByte long (Option.isSome_iff_ne_none.mpr isLead) with two | three | four
      · obtain ⟨value, rfl⟩ := Nat.exists_eq_add_of_le' (Nat.le_trans (by decide : 192 ≤ 194) two.1)
        exact noLetter ((begins_two (by omega) (by omega) zero).front [_] [_])
      · obtain ⟨value, rfl⟩ := Nat.exists_eq_add_of_le' three.1
        have second : (if value = 0 then 32 else 0) < 64 := by split <;> decide
        exact noLetter ((begins_three (by omega) second zero (by split <;> omega)
          (by split <;> omega)).front [_] [_, _])
      · obtain ⟨value, rfl⟩ := Nat.exists_eq_add_of_le' four.1
        have second : (if value = 0 then 16 else 0) < 64 := by split <;> decide
        exact noLetter ((begins_four (by omega) second zero zero (by split <;> omega)
          (by split <;> omega)).front [_] [_, _, _])
    rw [leadByte, if_neg notShort, noLead]

/-- A malformed piece is read as one. -/
theorem readBytes_malformed (isMalformed : IsMalformed piece bytes) :
    readBytes none (piece ++ bytes) = none :: readBytes none bytes := by
  obtain ⟨filled, noLetter, begins, longest⟩ := isMalformed
  by_cases alone : Begins piece
  · obtain ⟨pending, reads, goesOn⟩ := exists_leaves alone filled noLetter
    rw [reads]
    cases bytes with
    | nil => rfl
    | cons next bytes =>
        have outside : ¬ (pending.low ≤ next && next ≤ pending.high) = true := by
          rw [Bool.and_eq_true, decide_eq_true_eq, decide_eq_true_eq]
          exact fun inside => longest next rfl (goesOn next inside.1 inside.2)
        exact readBytes_outside outside
  · obtain ⟨byte, rfl⟩ := List.length_eq_one_iff.mp (begins.resolve_left alone)
    rw [List.singleton_append, readBytes, leadByte_of_not_begins alone]
    rfl

/-- What could begin a character is taken as far as it goes. -/
theorem exists_longest (bytes : List UInt8) (begins : Begins piece ∨ piece.length = 1) :
    ∃ further behind, bytes = further ++ behind ∧
      (Begins (piece ++ further) ∨ (piece ++ further).length = 1) ∧
        ∀ next, behind.head? = some next → ¬ Begins (piece ++ further ++ [next]) := by
  induction bytes generalizing piece with
  | nil => exact ⟨[], [], rfl, (List.append_nil piece).symm ▸ begins, fun _ absent => nomatch absent⟩
  | cons next bytes inductionHypothesis =>
      by_cases goesOn : Begins (piece ++ [next])
      · obtain ⟨further, behind, rfl, isPiece, longest⟩ := inductionHypothesis (.inl goesOn)
        simp only [List.append_assoc, List.singleton_append] at isPiece longest
        exact ⟨next :: further, behind, rfl, isPiece, by simpa only [List.append_assoc] using longest⟩
      · refine ⟨[], next :: bytes, rfl, (List.append_nil piece).symm ▸ begins, fun other isNext => ?_⟩
        obtain rfl := Option.some.inj isNext
        rwa [List.append_nil]

/-- Every sequence of bytes spells some text. -/
theorem exists_spells (bytes : List UInt8) : ∃ text, Spells bytes text := by
  induction size : bytes.length using Nat.strong_induction_on generalizing bytes with
  | _ size shorter =>
    subst size
    cases bytes with
    | nil => exact ⟨[], .nil⟩
    | cons first bytes =>
        by_cases found : ∃ letter, String.utf8EncodeChar letter <+: first :: bytes
        · obtain ⟨letter, behind, whole⟩ := found
          have taken : 0 < (String.utf8EncodeChar letter).length := by
            rw [String.length_utf8EncodeChar]
            exact letter.utf8Size_pos
          rw [← whole] at shorter ⊢
          obtain ⟨text, spells⟩ := shorter behind.length (by rw [List.length_append]; omega) behind rfl
          exact ⟨letter :: text, .letter letter spells⟩
        · obtain ⟨further, behind, rfl, begins, longest⟩ :=
            exists_longest bytes (.inr (List.length_singleton (a := first)))
          obtain ⟨text, spells⟩ := shorter behind.length
            (by rw [List.length_cons, List.length_append]; omega) behind rfl
          have isMalformed : IsMalformed (first :: further) behind := {
            filled := List.cons_ne_nil first further
            noLetter := fun letter same => found ⟨letter, behind, same ▸ rfl⟩
            begins := begins
            longest := longest }
          exact ⟨replacement :: text, .malformed isMalformed spells⟩

/-- Bytes are read as the text that they spell. -/
theorem spells_iff : Spells bytes text ↔ ofBytesLossy bytes = text := by
  have reads : ∀ {text}, Spells bytes text → ofBytesLossy bytes = text := by
    intro text spells
    induction spells with
    | nil => rfl
    | letter letter behind inductionHypothesis =>
        rw [ofBytesLossy, readBytes_utf8EncodeChar, List.map_cons, ← ofBytesLossy, inductionHypothesis]
        rfl
    | malformed isMalformed behind inductionHypothesis =>
        rw [ofBytesLossy, readBytes_malformed isMalformed, List.map_cons, ← ofBytesLossy,
          inductionHypothesis]
        rfl
  refine ⟨reads, fun isRead => ?_⟩
  obtain ⟨other, spells⟩ := exists_spells bytes
  exact isRead ▸ (reads spells).symm ▸ spells

/-- How many letters of a text take a single byte. -/
def shortLetters (text : Text) : Nat := text.countP fun letter => letter.val.toNat < 0x80

/-- How many bytes are letters by themselves. -/
def shortBytes (bytes : List UInt8) : Nat := bytes.countP fun byte => byte.toNat < 0x80

theorem shortBytes_append (front behind : List UInt8) :
    shortBytes (front ++ behind) = shortBytes front + shortBytes behind :=
  List.countP_append

theorem shortBytes_cons (byte : UInt8) (bytes : List UInt8) :
    shortBytes (byte :: bytes) = shortBytes [byte] + shortBytes bytes :=
  shortBytes_append [byte] bytes

theorem utf8EncodeChar_short {letter : Char} (short : letter.val.toNat < 0x80) :
    String.utf8EncodeChar letter = [UInt8.ofNat letter.val.toNat] := by
  simp only [String.utf8EncodeChar]
  rw [if_pos (Nat.le_of_lt_succ short)]

theorem shortBytes_utf8EncodeChar (letter : Char) :
    shortBytes (String.utf8EncodeChar letter) = shortLetters [letter] := by
  by_cases short : letter.val.toNat < 0x80
  · have isByte : (UInt8.ofNat letter.val.toNat).toNat = letter.val.toNat :=
      UInt8.toNat_ofNat_of_lt' (Nat.lt_trans short (by decide))
    simp only [utf8EncodeChar_short short, shortBytes, shortLetters, List.countP_singleton, isByte]
  · rw [shortLetters, List.countP_singleton, if_neg (by rwa [decide_eq_true_eq]), shortBytes,
      List.countP_eq_zero]
    intro byte member isShort
    rw [decide_eq_true_eq] at isShort
    rcases toNat_of_mem_utf8EncodeChar member with isCode | high <;> omega

/-- No letter that takes a single byte is lost in a malformed piece. -/
theorem IsMalformed.shortBytes_eq (isMalformed : IsMalformed piece bytes) : shortBytes piece = 0 := by
  rw [shortBytes, List.countP_eq_zero]
  intro byte member short
  rw [decide_eq_true_eq] at short
  obtain ⟨letter, isCode⟩ := exists_letter byte.toNat (.inl (by omega))
  have isLetter : String.utf8EncodeChar letter = [byte] := by
    rw [utf8EncodeChar_short (isCode ▸ short), isCode, UInt8.ofNat_toNat]
  refine isMalformed.noLetter letter (isLetter.trans ?_)
  rcases isMalformed.begins with ⟨other, isPrefix⟩ | single
  · have isShort : other.val.toNat < 0x80 := by
      rcases toNat_of_mem_utf8EncodeChar (isPrefix.subset member) with isCode | high <;> omega
    rw [utf8EncodeChar_short isShort] at isPrefix
    obtain rfl := isPrefix.eq_of_length
      (Nat.le_antisymm isPrefix.length_le (List.length_pos_of_mem member))
    rw [List.mem_singleton.mp member]
  · obtain ⟨first, rfl⟩ := List.length_eq_one_iff.mp single
    rw [List.mem_singleton.mp member]

/-- The letters that take a single byte are all read, and no others are made of it. -/
theorem Spells.shortLetters_eq (spells : Spells bytes text) : shortLetters text = shortBytes bytes := by
  induction spells with
  | nil => rfl
  | letter letter behind inductionHypothesis =>
      rw [shortBytes_append, shortBytes_utf8EncodeChar,
        ← inductionHypothesis, ← List.singleton_append]
      exact List.countP_append
  | malformed isMalformed behind inductionHypothesis =>
      rw [shortBytes_append, isMalformed.shortBytes_eq,
        Nat.zero_add, ← inductionHypothesis]
      exact List.countP_cons_of_neg (by decide)

/-- A letter that takes a single byte is read from that byte. -/
theorem Spells.mem_of_short (spells : Spells bytes text) {letter : Char}
    (short : letter.val.toNat < 0x80) (member : letter ∈ text) :
    UInt8.ofNat letter.val.toNat ∈ bytes := by
  induction spells with
  | nil => cases member
  | letter other behind inductionHypothesis =>
      rcases List.mem_cons.mp member with rfl | inside
      · rw [utf8EncodeChar_short short]
        exact List.mem_cons_self
      · exact List.mem_append_right _ (inductionHypothesis inside)
  | malformed isMalformed behind inductionHypothesis =>
      rcases List.mem_cons.mp member with rfl | inside
      · exact absurd short (by decide)
      · exact List.mem_append_right _ (inductionHypothesis inside)

/-- Without replacement characters, a text is spelled by its own bytes. -/
theorem Spells.eq_toBytes (spells : Spells bytes text) (whole : replacement ∉ text) :
    bytes = text.toBytes := by
  induction spells with
  | nil => rfl
  | letter letter behind inductionHypothesis =>
      rw [inductionHypothesis (List.not_mem_of_not_mem_cons whole)]
      rfl
  | malformed => exact absurd List.mem_cons_self whole

end ImportMeter.Text
