/-
This file compares the decoding of percent escapes with what an escape is: a percent sign and the two
hexadecimal digits of a byte.
-/
import ImportMeter.Proofs.Text.Percent

namespace ImportMeter.Text

variable {byte value : UInt8} {bytes decoded : List UInt8} {digit : Char} {number : Nat}
  {text letters : Text}

/-- The hexadecimal digits of either case, in the order of their values. -/
def digitRows : List Text := ["0123456789abcdef".toList, "0123456789ABCDEF".toList]

/-- True for the digits that stand for a number. -/
def IsDigitOf (digit : Char) (number : Nat) : Prop := ∃ row ∈ digitRows, row[number]? = some digit

instance (digit : Char) (number : Nat) : Decidable (IsDigitOf digit number) :=
  inferInstanceAs (Decidable (∃ row ∈ digitRows, row[number]? = some digit))

/-- A percent sign and the two digits of a byte. -/
def IsEscapeOf (byte : UInt8) (letters : Text) : Prop :=
  ∃ high low, letters = ['%', high, low] ∧ IsDigitOf high (byte.toNat / 16) ∧
    IsDigitOf low (byte.toNat % 16)

/-- A percent sign, a plus sign and a digit. -/
def IsSigned (letters : Text) : Prop :=
  ∃ digit number, letters = ['%', '+', digit] ∧ IsDigitOf digit number

/-- Bytes are decoded from the left to the right: an escape becomes the byte that it names, and every
other byte stays as it is. -/
inductive Decodes : List UInt8 → List UInt8 → Prop where
  | nil : Decodes [] []
  | escape {byte : UInt8} {letters : Text} {bytes decoded : List UInt8}
      (isEscape : IsEscapeOf byte letters) (behind : Decodes bytes decoded) :
      Decodes (toBytes letters ++ bytes) (byte :: decoded)
  | kept {byte : UInt8} {bytes decoded : List UInt8}
      (noEscape : ∀ value letters, IsEscapeOf value letters → ¬ toBytes letters <+: byte :: bytes)
      (behind : Decodes bytes decoded) : Decodes (byte :: bytes) (byte :: decoded)

/-- The text that the decoded bytes of another text spell. -/
def DecodesTo (text decoded : Text) : Prop := ∃ bytes, Decodes text.toBytes bytes ∧ Spells bytes decoded

/-- True for bytes that hold the letters of a signed digit behind a percent sign. -/
def HasSign (bytes : List UInt8) : Prop := ∃ letters, IsSigned letters ∧ toBytes letters <:+: bytes

/-- A digit is one byte, and is read as its number. -/
theorem IsDigitOf.hexDigit? (isDigit : IsDigitOf digit number) :
    number < 16 ∧ ∃ byte, toBytes [digit] = [byte] ∧
      Text.hexDigit? byte = some (UInt8.ofNat number) := by
  have every : ∀ row ∈ digitRows, row.length = 16 ∧ ∀ number < 16,
      row[number]?.map (fun digit => (toBytes [digit]).map Text.hexDigit?) =
        some [some (UInt8.ofNat number)] := by
    decide +kernel
  obtain ⟨row, isRow, found⟩ := isDigit
  obtain ⟨length, read⟩ := every row isRow
  have inside : number < 16 := length ▸ (List.getElem?_eq_some_iff.mp found).1
  have read := read number inside
  rw [found, Option.map_some, Option.some_inj] at read
  obtain ⟨byte, bytes, isByte⟩ := List.map_eq_singleton_iff.mp read
  exact ⟨inside, byte, bytes, isByte⟩

/-- What is read as a digit is one. -/
theorem exists_isDigitOf (read : hexDigit? byte = some value) :
    ∃ digit, toBytes [digit] = [byte] ∧ IsDigitOf digit value.toNat := by
  have every : ∀ byte, (Text.hexDigit? byte).all (fun value => decide
      (toBytes [Char.ofNat byte.toNat] = [byte] ∧ IsDigitOf (Char.ofNat byte.toNat) value.toNat)) = true :=
    forall_byte (by decide +kernel)
  have isDigit := every byte
  rw [read, Option.all_some] at isDigit
  exact ⟨Char.ofNat byte.toNat, of_decide_eq_true isDigit⟩

theorem toBytes_append (first second : Text) :
    toBytes (first ++ second) = toBytes first ++ toBytes second :=
  List.flatMap_append

/-- A byte is made of the halves that its digits stand for. -/
theorem ofNat_halves (byte : UInt8) :
    UInt8.ofNat (byte.toNat / 16) * 16 + UInt8.ofNat (byte.toNat % 16) = byte := by
  have isByte := byte.toNat_lt
  have high : (UInt8.ofNat (byte.toNat / 16)).toNat = byte.toNat / 16 :=
    UInt8.toNat_ofNat_of_lt' (by change _ < 256; omega)
  have low : (UInt8.ofNat (byte.toNat % 16)).toNat = byte.toNat % 16 :=
    UInt8.toNat_ofNat_of_lt' (by change _ < 256; omega)
  have base : (16 : UInt8).toNat = 16 := rfl
  refine UInt8.toNat_inj.mp ?_
  rw [UInt8.toNat_add, UInt8.toNat_mul, high, low, base]
  omega

theorem toNat_halves {high low : UInt8} (highDigit : high.toNat < 16) (lowDigit : low.toNat < 16) :
    (high * 16 + low).toNat / 16 = high.toNat ∧ (high * 16 + low).toNat % 16 = low.toNat := by
  have base : (16 : UInt8).toNat = 16 := rfl
  rw [UInt8.toNat_add, UInt8.toNat_mul, base]
  omega

/-- Digits are letters of their own, apart from the signs. -/
theorem plain_of_hexDigit? (read : hexDigit? byte = some value) :
    byte < 0x80 ∧ byte ≠ 0x25 ∧ byte ≠ 0x2b := by
  have every : ∀ byte, (Text.hexDigit? byte).isSome = true →
      byte < 0x80 ∧ byte ≠ 0x25 ∧ byte ≠ 0x2b :=
    forall_byte (by decide +kernel)
  exact every byte (read ▸ rfl)

/-- Three letters are spelled by the bytes of each. -/
theorem toBytes_three {first second third : Char} {one two three : UInt8} (isOne : toBytes [first] = [one])
    (isTwo : toBytes [second] = [two]) (isThree : toBytes [third] = [three]) :
    toBytes [first, second, third] = [one, two, three] := by
  have apart : [first, second, third] = [first] ++ [second] ++ [third] := rfl
  rw [apart, toBytes_append, toBytes_append, isOne, isTwo, isThree]
  rfl

/-- An escape is spelled by three bytes. -/
theorem IsEscapeOf.spelled (isEscape : IsEscapeOf value letters) :
    ∃ first second, toBytes letters = [0x25, first, second] ∧
      Text.hexDigit? first = some (UInt8.ofNat (value.toNat / 16)) ∧
      Text.hexDigit? second = some (UInt8.ofNat (value.toNat % 16)) := by
  obtain ⟨high, low, rfl, highDigit, lowDigit⟩ := isEscape
  obtain ⟨_, first, isFirst, readFirst⟩ := highDigit.hexDigit?
  obtain ⟨_, second, isSecond, readSecond⟩ := lowDigit.hexDigit?
  exact ⟨first, second, toBytes_three rfl isFirst isSecond, readFirst, readSecond⟩

theorem IsSigned.spelled (isSigned : IsSigned letters) :
    ∃ second value, toBytes letters = [0x25, 0x2b, second] ∧ Text.hexDigit? second = some value := by
  obtain ⟨digit, number, rfl, isDigit⟩ := isSigned
  obtain ⟨_, second, isSecond, readSecond⟩ := isDigit.hexDigit?
  exact ⟨second, _, toBytes_three rfl rfl isSecond, readSecond⟩

/-- An escape is read as the byte that it names. -/
theorem escapedByte?_digits {first second : UInt8}
    (readFirst : hexDigit? first = some (UInt8.ofNat (value.toNat / 16)))
    (readSecond : hexDigit? second = some (UInt8.ofNat (value.toNat % 16))) :
    escapedByte? first second = some value := by
  obtain ⟨_, _, notPlus⟩ := plain_of_hexDigit? readFirst
  rw [escapedByte?, readSecond, Option.bind_some, if_neg notPlus, readFirst, Option.map_some,
    ofNat_halves]

/-- What is read as an escape is one, or is a signed digit. -/
theorem escapedByte?_cases {first second : UInt8} (read : escapedByte? first second = some value) :
    ∃ letters, toBytes letters = [0x25, first, second] ∧
      (IsEscapeOf value letters ∨ IsSigned letters) := by
  obtain ⟨low, readSecond, read⟩ := Option.bind_eq_some_iff.mp read
  obtain ⟨lowDigit, isSecond, isLow⟩ := exists_isDigitOf readSecond
  split at read
  next isPlus =>
    subst isPlus
    exact ⟨['%', '+', lowDigit], toBytes_three rfl rfl isSecond, .inr ⟨lowDigit, low.toNat, rfl, isLow⟩⟩
  next =>
    obtain ⟨high, readFirst, rfl⟩ := Option.map_eq_some_iff.mp read
    obtain ⟨highDigit, isFirst, isHigh⟩ := exists_isDigitOf readFirst
    obtain ⟨above, below⟩ := toNat_halves isHigh.hexDigit?.1 isLow.hexDigit?.1
    exact ⟨['%', highDigit, lowDigit], toBytes_three rfl isFirst isSecond,
      .inl ⟨highDigit, lowDigit, rfl, by rwa [above], by rwa [below]⟩⟩

/-- An escape is decoded to the byte that it names. -/
theorem IsEscapeOf.unescapeBytes (isEscape : IsEscapeOf byte letters) (bytes : List UInt8) :
    Text.unescapeBytes (toBytes letters ++ bytes) = byte :: Text.unescapeBytes bytes := by
  obtain ⟨first, second, spelled, readFirst, readSecond⟩ := isEscape.spelled
  rw [spelled]
  simp only [List.cons_append, List.nil_append]
  rw [Text.unescapeBytes, if_pos rfl, escapedByte?_digits readFirst readSecond]

/-- A byte that begins neither an escape nor a signed digit stays as it is. -/
theorem unescapeBytes_kept
    (noEscape : ∀ value letters, IsEscapeOf value letters → ¬ toBytes letters <+: byte :: bytes)
    (noSign : ∀ letters, IsSigned letters → ¬ toBytes letters <+: byte :: bytes) :
    unescapeBytes (byte :: bytes) = byte :: unescapeBytes bytes := by
  by_cases isPercent : byte = 0x25
  · subst isPercent
    match bytes with
    | [] => rfl
    | [_] => rfl
    | first :: second :: bytes =>
        cases read : escapedByte? first second with
        | none => rw [unescapeBytes, if_pos rfl, read]
        | some value =>
            obtain ⟨letters, spelled, isEscape | isSigned⟩ := escapedByte?_cases read
            · exact absurd ⟨bytes, by rw [spelled]; rfl⟩ (noEscape value letters isEscape)
            · exact absurd ⟨bytes, by rw [spelled]; rfl⟩ (noSign letters isSigned)
  · exact unescapeBytes_cons bytes isPercent

/-- An escape leads the bytes that hold it in one way. -/
theorem Decodes.of_escape (isEscape : IsEscapeOf byte letters)
    (decodes : Decodes (toBytes letters ++ bytes) decoded) :
    ∃ behind, decoded = byte :: behind ∧ Decodes bytes behind := by
  have read := isEscape.unescapeBytes []
  generalize whole : toBytes letters ++ bytes = all at decodes
  obtain ⟨first, second, spelled, _⟩ := isEscape.spelled
  cases decodes with
  | nil =>
      rw [spelled] at whole
      cases whole
  | escape other behind =>
      have otherRead := other.unescapeBytes []
      obtain ⟨otherFirst, otherSecond, otherSpelled, _⟩ := other.spelled
      rw [spelled, otherSpelled] at whole
      cases whole
      rw [otherSpelled, ← spelled, read] at otherRead
      obtain ⟨rfl, _⟩ := List.cons.inj otherRead
      exact ⟨_, rfl, behind⟩
  | kept noEscape behind => exact absurd ⟨bytes, whole⟩ (noEscape byte letters isEscape)

theorem Decodes.of_kept
    (noEscape : ∀ value letters, IsEscapeOf value letters → ¬ toBytes letters <+: byte :: bytes)
    (decodes : Decodes (byte :: bytes) decoded) :
    ∃ behind, decoded = byte :: behind ∧ Decodes bytes behind := by
  generalize whole : byte :: bytes = all at decodes
  cases decodes with
  | nil => cases whole
  | escape isEscape behind => exact absurd ⟨_, whole.symm⟩ (noEscape _ _ isEscape)
  | kept _ behind =>
      cases whole
      exact ⟨_, rfl, behind⟩

theorem Decodes.of_nil (decodes : Decodes [] decoded) : decoded = [] := by
  generalize whole : [] = all at decodes
  cases decodes with
  | nil => rfl
  | escape isEscape behind =>
      obtain ⟨_, _, spelled, _⟩ := isEscape.spelled
      rw [spelled] at whole
      cases whole
  | kept => cases whole

/-- Bytes are decoded in one way at most. -/
theorem Decodes.unique {other : List UInt8} (decodes : Decodes bytes decoded)
    (otherwise : Decodes bytes other) : other = decoded := by
  induction decodes generalizing other with
  | nil => exact otherwise.of_nil
  | escape isEscape behind inductionHypothesis =>
      obtain ⟨rest, rfl, decodes⟩ := otherwise.of_escape isEscape
      rw [inductionHypothesis decodes]
  | kept noEscape behind inductionHypothesis =>
      obtain ⟨rest, rfl, decodes⟩ := otherwise.of_kept noEscape
      rw [inductionHypothesis decodes]

/-- All bytes can be decoded: they begin with an escape, or else with a byte that stays. -/
theorem exists_decodes (bytes : List UInt8) : ∃ decoded, Decodes bytes decoded := by
  induction size : bytes.length using Nat.strong_induction_on generalizing bytes with
  | _ size shorter =>
    subst size
    cases bytes with
    | nil => exact ⟨[], .nil⟩
    | cons byte bytes =>
        by_cases found : ∃ value letters, IsEscapeOf value letters ∧ toBytes letters <+: byte :: bytes
        · obtain ⟨value, letters, isEscape, behind, whole⟩ := found
          obtain ⟨first, second, spelled, _⟩ := isEscape.spelled
          obtain ⟨decoded, decodes⟩ := shorter behind.length
            (by rw [← whole, spelled, List.length_append]; exact Nat.lt_add_of_pos_left (Nat.zero_lt_succ 2))
            behind rfl
          exact ⟨value :: decoded, whole ▸ .escape isEscape decodes⟩
        · obtain ⟨decoded, decodes⟩ := shorter bytes.length (Nat.lt_succ_self _) bytes rfl
          exact ⟨byte :: decoded, .kept
            (fun value letters isEscape isPrefix => found ⟨value, letters, isEscape, isPrefix⟩) decodes⟩

/-- Without a signed digit, exactly the escapes are decoded. -/
theorem Decodes.unescapeBytes_eq (decodes : Decodes bytes decoded) (noSign : ¬ HasSign bytes) :
    unescapeBytes bytes = decoded := by
  induction decodes with
  | nil => rfl
  | @escape byte letters bytes decoded isEscape behind inductionHypothesis =>
      rw [isEscape.unescapeBytes, inductionHypothesis]
      rintro ⟨other, isSigned, inside⟩
      exact noSign ⟨other, isSigned, inside.trans (List.suffix_append _ _).isInfix⟩
  | @kept byte bytes decoded noEscape behind inductionHypothesis =>
      rw [unescapeBytes_kept noEscape, inductionHypothesis]
      · rintro ⟨other, isSigned, inside⟩
        exact noSign ⟨other, isSigned, inside.trans (List.suffix_cons _ _).isInfix⟩
      · exact fun other isSigned isPrefix => noSign ⟨other, isSigned, isPrefix.isInfix⟩

/-- A signed digit is not inside of an escape. -/
theorem IsEscapeOf.hasSign (isEscape : IsEscapeOf byte letters)
    (hasSign : HasSign (toBytes letters ++ bytes)) : HasSign bytes := by
  obtain ⟨other, isSigned, inside⟩ := hasSign
  obtain ⟨first, second, spelled, readFirst, readSecond⟩ := isEscape.spelled
  obtain ⟨_, _, otherSpelled, _⟩ := isSigned.spelled
  obtain ⟨_, firstPlain, firstUnsigned⟩ := plain_of_hexDigit? readFirst
  obtain ⟨_, secondPlain, _⟩ := plain_of_hexDigit? readSecond
  refine ⟨other, isSigned, ?_⟩
  rw [spelled, otherSpelled] at inside
  rw [otherSpelled]
  simp only [List.cons_append, List.nil_append, List.infix_cons_iff, List.cons_prefix_cons] at inside
  rcases inside with ⟨_, isPlus, _⟩ | ⟨isPercent, _⟩ | ⟨isPercent, _⟩ | inside
  · exact absurd isPlus.symm firstUnsigned
  · exact absurd isPercent.symm firstPlain
  · exact absurd isPercent.symm secondPlain
  · exact inside

/-- A signed digit is decoded to a byte. -/
theorem IsSigned.unescapeBytes (isSigned : IsSigned letters) (bytes : List UInt8) :
    ∃ byte, Text.unescapeBytes (toBytes letters ++ bytes) = byte :: Text.unescapeBytes bytes := by
  obtain ⟨second, value, spelled, read⟩ := isSigned.spelled
  refine ⟨value, ?_⟩
  have readEscape : escapedByte? 0x2b second = some value := by
    rw [escapedByte?, read, Option.bind_some, if_pos rfl]
  rw [spelled]
  simp only [List.cons_append, List.nil_append]
  rw [Text.unescapeBytes, if_pos rfl, readEscape]

theorem not_escape_of_ne (plain : byte ≠ 0x25) :
    ∀ value letters, IsEscapeOf value letters → ¬ toBytes letters <+: byte :: bytes := by
  intro value letters isEscape isPrefix
  obtain ⟨_, _, spelled, _⟩ := isEscape.spelled
  rw [spelled, List.cons_prefix_cons] at isPrefix
  exact plain isPrefix.1.symm

theorem not_escape_of_plus (bytes : List UInt8) :
    ∀ value letters, IsEscapeOf value letters → ¬ toBytes letters <+: 0x25 :: 0x2b :: bytes := by
  intro value letters isEscape isPrefix
  obtain ⟨first, _, spelled, readFirst, _⟩ := isEscape.spelled
  rw [spelled, List.cons_prefix_cons, List.cons_prefix_cons] at isPrefix
  exact (plain_of_hexDigit? readFirst).2.2 isPrefix.2.1

/-- The letters of a signed digit stay as they are. -/
theorem Decodes.of_signed (isSigned : IsSigned letters)
    (decodes : Decodes (toBytes letters ++ bytes) decoded) :
    ∃ behind, decoded = toBytes letters ++ behind ∧ Decodes bytes behind := by
  obtain ⟨second, value, spelled, read⟩ := isSigned.spelled
  obtain ⟨_, plain, _⟩ := plain_of_hexDigit? read
  rw [spelled] at decodes ⊢
  obtain ⟨_, rfl, behindPercent⟩ := Decodes.of_kept (not_escape_of_plus (second :: bytes)) decodes
  obtain ⟨_, rfl, behindPlus⟩ := behindPercent.of_kept (not_escape_of_ne (by decide))
  obtain ⟨behind, rfl, behindDigit⟩ := behindPlus.of_kept (not_escape_of_ne plain)
  exact ⟨behind, rfl, behindDigit⟩

/-- All the bytes of a signed digit are letters. -/
theorem IsSigned.shortBytes_eq (isSigned : IsSigned letters) : shortBytes (toBytes letters) = 3 := by
  obtain ⟨second, value, spelled, read⟩ := isSigned.spelled
  have short : second.toNat < 0x80 := UInt8.lt_iff_toNat_lt.mp (plain_of_hexDigit? read).1
  rw [spelled]
  refine List.countP_eq_length.mpr fun byte member => ?_
  simp only [List.mem_cons, List.not_mem_nil, or_false] at member
  rcases member with rfl | rfl | rfl
  · rfl
  · rfl
  · exact decide_eq_true short

/-- Where a signed digit is decoded, letters of a single byte are lost. -/
theorem Decodes.exists_lost (decodes : Decodes bytes decoded) :
    ∃ lost, shortBytes decoded = shortBytes (unescapeBytes bytes) + lost ∧
      (HasSign bytes → 0 < lost) := by
  induction size : bytes.length using Nat.strong_induction_on generalizing bytes decoded with
  | _ size shorter =>
    subst size
    by_cases found : ∃ letters, IsSigned letters ∧ toBytes letters <+: bytes
    · obtain ⟨letters, isSigned, behind, rfl⟩ := found
      obtain ⟨byte, unescaped⟩ := isSigned.unescapeBytes behind
      obtain ⟨rest, rfl, decodesBehind⟩ := decodes.of_signed isSigned
      obtain ⟨_, _, spelled, _⟩ := isSigned.spelled
      obtain ⟨lost, same, _⟩ := shorter behind.length
        (by rw [spelled, List.length_append]; exact Nat.lt_add_of_pos_left (Nat.zero_lt_succ 2))
        decodesBehind rfl
      have atMostOne : shortBytes [byte] ≤ 1 := List.countP_le_length
      refine ⟨3 - shortBytes [byte] + lost, ?_, fun _ => by omega⟩
      rw [unescaped, shortBytes_cons, shortBytes_append, isSigned.shortBytes_eq]
      omega
    cases decodes with
    | nil =>
        refine ⟨0, rfl, ?_⟩
        rintro ⟨letters, isSigned, inside⟩
        exact absurd ⟨letters, isSigned, by rw [List.infix_nil.mp inside]⟩ found
    | @escape byte letters bytes decoded isEscape behind =>
        obtain ⟨_, _, spelled, _⟩ := isEscape.spelled
        obtain ⟨lost, same, hasSign⟩ := shorter bytes.length
          (by rw [spelled, List.length_append]; exact Nat.lt_add_of_pos_left (Nat.zero_lt_succ 2))
          behind rfl
        refine ⟨lost, ?_, fun signed => hasSign (isEscape.hasSign signed)⟩
        rw [isEscape.unescapeBytes, shortBytes_cons, same, shortBytes_cons _ (unescapeBytes bytes),
          Nat.add_assoc]
    | @kept byte bytes decoded noEscape behind =>
        have noSign : ∀ letters, IsSigned letters → ¬ toBytes letters <+: byte :: bytes :=
          fun letters isSigned isPrefix => found ⟨letters, isSigned, isPrefix⟩
        obtain ⟨lost, same, hasSign⟩ := shorter bytes.length (Nat.lt_succ_self _) behind rfl
        refine ⟨lost, ?_, ?_⟩
        · rw [unescapeBytes_kept noEscape noSign, shortBytes_cons, same,
            shortBytes_cons _ (unescapeBytes bytes), Nat.add_assoc]
        · rintro ⟨letters, isSigned, inside⟩
          exact hasSign ⟨letters, isSigned,
            (List.infix_cons_iff.mp inside).resolve_left (noSign letters isSigned)⟩

/-- Percent escapes are decoded exactly, unless a signed digit stands in for one. -/
theorem percentDecode_exact (text : Text) :
    ∃ decoded, (∀ other, DecodesTo text other ↔ other = decoded) ∧
      (text.percentDecode = decoded ↔ ¬ HasSign text.toBytes) := by
  obtain ⟨bytes, decodes⟩ := exists_decodes text.toBytes
  refine ⟨ofBytesLossy bytes, fun other => ⟨?_, ?_⟩, ?_, fun noSign => ?_⟩
  · rintro ⟨otherwise, decodesOtherwise, spells⟩
    rw [← spells_iff.mp spells, decodes.unique decodesOtherwise]
  · rintro rfl
    exact ⟨bytes, decodes, spells_iff.mpr rfl⟩
  · intro same hasSign
    obtain ⟨lost, fewer, atLeast⟩ := decodes.exists_lost
    have read : shortLetters text.percentDecode = shortBytes (unescapeBytes text.toBytes) :=
      (spells_iff.mpr rfl).shortLetters_eq
    have expected : shortLetters (ofBytesLossy bytes) = shortBytes bytes :=
      (spells_iff.mpr rfl).shortLetters_eq
    rw [same, expected] at read
    have := atLeast hasSign
    omega
  · rw [percentDecode, decodes.unescapeBytes_eq noSign]

/-- A plus sign is no digit, and is taken for one. -/
theorem percentDecode_plusSign :
    DecodesTo "a%+5b".toList "a%+5b".toList ∧ percentDecode "a%+5b".toList ≠ "a%+5b".toList := by
  refine ⟨⟨[0x61, 0x25, 0x2b, 0x35, 0x62], ?_, spells_iff.mpr (by decide)⟩, by decide⟩
  exact .kept (not_escape_of_ne (by decide)) (.kept (not_escape_of_plus [0x35, 0x62])
    (.kept (not_escape_of_ne (by decide)) (.kept (not_escape_of_ne (by decide))
      (.kept (not_escape_of_ne (by decide)) .nil))))

end ImportMeter.Text
