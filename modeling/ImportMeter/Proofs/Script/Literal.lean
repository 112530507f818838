/-
This file says what string literals denote, and compares that with the value that is read from the parts
of a literal.
-/
import Mathlib.Data.List.Forall2
import Mathlib.Data.List.Induction
import ImportMeter.Proofs.Script.Gap
import ImportMeter.Proofs.Text.Escape
import ImportMeter.Proofs.Text.Utf16
import ImportMeter.Script.Literal

namespace ImportMeter.Script

open ImportMeter.Text (toUnits unitsOf)

variable {quote letter digit : Char} {text rest behind spelled digits : Text} {units : List Nat}
  {number value length : Nat}

/-! ### What a literal denotes -/

/-- True for the digits that spell a number in a base of sixteen or less. -/
def IsNumeral (base : Nat) (digits : Text) (number : Nat) : Prop :=
  ∃ values, List.Forall₂ Text.IsDigitOf digits values ∧ (∀ value ∈ values, value < base) ∧
    number = values.foldl (fun number value => number * base + value) 0

/-- The characters with a meaning of their own behind a backslash. -/
def singleEscapes : List (Char × Char) := [
  ('\x27', '\x27'), ('\x22', '\x22'), ('\\', '\\'), ('b', '\x08'), ('f', '\x0c'), ('n', '\n'),
  ('r', '\r'), ('t', '\t'), ('v', '\x0b')]

/-- The characters that end a line. -/
def lineTerminators : List Char := ['\n', '\r', '\u2028', '\u2029']

/-- The digits of an octal escape: three at most, of which the number fits in a byte, and as many as
there are. -/
inductive IsOctalEscape (behind : Text) : Text → Prop where
  | zero (decimal : behind.head? = some '8' ∨ behind.head? = some '9') : IsOctalEscape behind ['0']
  | one {first : Char} (nonzero : first ≠ '0')
      (last : ∀ next, behind.head? = some next → isOctal next = false) : IsOctalEscape behind [first]
  | two {first second : Char} (low : first ≤ '3')
      (last : ∀ next, behind.head? = some next → isOctal next = false) :
      IsOctalEscape behind [first, second]
  | high {first second : Char} (high : '4' ≤ first) : IsOctalEscape behind [first, second]
  | three {first second third : Char} (low : first ≤ '3') :
      IsOctalEscape behind [first, second, third]

/-- What the spelling behind a backslash denotes, given what follows it. -/
inductive EscapeDenotes (behind : Text) : Text → List Nat → Prop where
  | single {letter value : Char} (listed : (letter, value) ∈ singleEscapes) :
      EscapeDenotes behind [letter] (unitsOf value.toNat)
  | itself {letter : Char} (unlisted : letter ∉ singleEscapes.map Prod.fst)
      (noDigit : isDigit letter = false) (noCode : letter ≠ 'x' ∧ letter ≠ 'u')
      (noEnd : letter ∉ lineTerminators) : EscapeDenotes behind [letter] (unitsOf letter.toNat)
  | nul (last : ∀ next, behind.head? = some next → isDigit next = false) :
      EscapeDenotes behind ['0'] [0]
  | octal {digits : Text} {number : Nat} (isNumeral : IsNumeral 8 digits number)
      (isOctal : IsOctalEscape behind digits) : EscapeDenotes behind digits [number]
  | decimal {letter : Char} (aboveOctal : letter = '8' ∨ letter = '9') :
      EscapeDenotes behind [letter] (unitsOf letter.toNat)
  | hex {digits : Text} {number : Nat} (isNumeral : IsNumeral 16 digits number)
      (two : digits.length = 2) : EscapeDenotes behind ('x' :: digits) [number]
  | unit {digits : Text} {number : Nat} (isNumeral : IsNumeral 16 digits number)
      (four : digits.length = 4) : EscapeDenotes behind ('u' :: digits) [number]
  | codePoint {digits : Text} {number : Nat} (isNumeral : IsNumeral 16 digits number)
      (filled : digits ≠ []) (inside : number ≤ 0x10ffff) :
      EscapeDenotes behind ('u' :: '{' :: digits ++ ['}']) (unitsOf number)
  | continuation {letter : Char} (isEnd : letter ∈ lineTerminators)
      (single : letter = '\r' → behind.head? ≠ some '\n') : EscapeDenotes behind [letter] []
  | wideContinuation : EscapeDenotes behind ['\r', '\n'] []

/-- What a text denotes up to the quote that closes it, and what follows that quote. -/
inductive Denotes (quote : Char) : Text → List Nat → Text → Prop where
  | close (rest : Text) : Denotes quote (quote :: rest) [] rest
  | plain {letter : Char} {behind rest : Text} {units : List Nat} (noQuote : letter ≠ quote)
      (noEscape : letter ≠ '\\') (sameLine : letter ≠ '\n' ∧ letter ≠ '\r')
      (denotes : Denotes quote behind units rest) :
      Denotes quote (letter :: behind) (unitsOf letter.toNat ++ units) rest
  | escape {spelled behind rest : Text} {first units : List Nat}
      (isEscape : EscapeDenotes behind spelled first) (denotes : Denotes quote behind units rest) :
      Denotes quote ('\\' :: spelled ++ behind) (first ++ units) rest

/-- True for the text of a string literal and its value, if that is a text. -/
def HasValue (literal value : Text) : Prop :=
  ∃ quote behind, (quote = '\x22' ∨ quote = '\x27') ∧ literal = quote :: behind ∧
    Denotes quote behind value.toUnits []

/-- The escapes that the decoder has no case for: octal ones apart from a lone zero, those of surrogates,
and those with a line separator or a paragraph separator. -/
inductive IsMisread : Text → Prop where
  | octal {digit : Char} {digits : Text} (isOctal : isOctal digit = true)
      (other : digit :: digits ≠ ['0']) : IsMisread ('\\' :: digit :: digits)
  | unit {digits : Text} {number : Nat} (isNumeral : IsNumeral 16 digits number)
      (isSurrogate : 0xd800 ≤ number ∧ number < 0xe000) : IsMisread ('\\' :: 'u' :: digits)
  | codePoint {digits : Text} {number : Nat} (isNumeral : IsNumeral 16 digits number)
      (isSurrogate : 0xd800 ≤ number ∧ number < 0xe000) :
      IsMisread ('\\' :: 'u' :: '{' :: digits ++ ['}'])
  | separator {letters : Text} (member : '\u2028' ∈ letters ∨ '\u2029' ∈ letters) : IsMisread letters

/-! ### Numerals -/

/-- Digits of any base are hexadecimal ones. -/
theorem isHex_of_isDigitOf (isDigit : Text.IsDigitOf digit value) :
    isHex digit = true ∧ hexValue digit = value ∧ (value < 8 → isOctal digit = true) := by
  have every : ∀ row ∈ Text.digitRows, ∀ value < 16, row[value]?.all (fun digit =>
      isHex digit && hexValue digit = value && (8 ≤ value || isOctal digit)) = true := by
    decide +kernel
  obtain ⟨inside, _⟩ := isDigit.hexDigit?
  obtain ⟨row, isRow, found⟩ := isDigit
  have spelled := every row isRow value inside
  rw [found, Option.all_some] at spelled
  simp only [Bool.and_eq_true, Bool.or_eq_true, decide_eq_true_eq] at spelled
  obtain ⟨⟨areHex, isValue⟩, large⟩ := spelled
  exact ⟨areHex, isValue, fun small => large.resolve_left (Nat.not_le.mpr small)⟩

theorem IsNumeral.each {base : Nat} (isNumeral : IsNumeral base digits number) :
    ∀ digit ∈ digits, ∃ value < base, Text.IsDigitOf digit value := by
  obtain ⟨values, areDigits, small, _⟩ := isNumeral
  clear * - areDigits small
  induction areDigits with
  | nil => exact fun digit member => absurd member List.not_mem_nil
  | @cons digit value _ _ isDigit _ inductionHypothesis =>
      obtain ⟨isSmall, small⟩ := List.forall_mem_cons.mp small
      exact List.forall_mem_cons.mpr ⟨⟨value, isSmall, isDigit⟩, inductionHypothesis small⟩

theorem IsNumeral.isHex {base : Nat} (isNumeral : IsNumeral base digits number) :
    ∀ digit ∈ digits, isHex digit = true := by
  intro digit member
  obtain ⟨value, _, isDigit⟩ := isNumeral.each digit member
  exact (isHex_of_isDigitOf isDigit).1

theorem IsNumeral.isOctal (isNumeral : IsNumeral 8 digits number) :
    ∀ digit ∈ digits, isOctal digit = true := by
  intro digit member
  obtain ⟨value, small, isDigit⟩ := isNumeral.each digit member
  exact (isHex_of_isDigitOf isDigit).2.2 small

/-- The digits tell the number. -/
theorem IsNumeral.eq_foldl {base : Nat} (isNumeral : IsNumeral base digits number) :
    digits.foldl (fun value digit => value * base + hexValue digit) 0 = number := by
  obtain ⟨values, areDigits, _, rfl⟩ := isNumeral
  generalize 0 = start
  clear * - areDigits
  induction areDigits generalizing start with
  | nil => rfl
  | cons isDigit _ inductionHypothesis =>
      rw [List.foldl_cons, List.foldl_cons, (isHex_of_isDigitOf isDigit).2.1, inductionHypothesis]

/-- A numeral is read as its number. -/
theorem IsNumeral.hexNumber? (isNumeral : IsNumeral 16 digits number) (filled : digits ≠ []) :
    hexNumber? digits = some number := by
  have spelled : (decide (digits ≠ []) && digits.all Script.isHex) = true := by
    rw [Bool.and_eq_true, decide_eq_true_eq, List.all_eq_true]
    exact ⟨filled, isNumeral.isHex⟩
  rw [Script.hexNumber?, isNumeral.eq_foldl, if_pos spelled]

/-- A numeral of some digits spells a number below the power of its base. -/
theorem IsNumeral.lt {base : Nat} (isNumeral : IsNumeral base digits number) :
    number < base ^ digits.length := by
  obtain ⟨values, areDigits, small, rfl⟩ := isNumeral
  rw [areDigits.length_eq]
  clear * - small
  induction values using List.reverseRecOn with
  | nil => exact Nat.one_pos
  | append_singleton values last inductionHypothesis =>
      obtain ⟨small, isLast⟩ := List.forall_mem_append.mp small
      have below := inductionHypothesis small
      have isLast := List.forall_mem_singleton.mp isLast
      rw [List.foldl_append, List.foldl_cons, List.foldl_nil, List.length_append,
        List.length_singleton, Nat.pow_succ]
      calc _ < _ * base + base := Nat.add_lt_add_left isLast _
        _ = (_ + 1) * base := (Nat.succ_mul _ base).symm
        _ ≤ _ := Nat.mul_le_mul_right base below

/-- A number that is no surrogate and not beyond the last code point is read as a character. -/
theorem exists_characterOf? (inside : number ≤ 0x10ffff) (plain : number < 0xd800 ∨ 0xe000 ≤ number) :
    ∃ letter, characterOf? number = some letter ∧ letter.toNat = number := by
  have valid : number.isValidChar := by
    rw [Nat.isValidChar]
    omega
  exact ⟨Char.ofNatAux number valid, dif_pos valid, rfl⟩

/-! ### The length of an escape -/

theorem length_le_runLength {test : Char → Bool} (inside : ∀ letter ∈ text, test letter = true)
    (behind : Text) : text.length ≤ runLength test (text ++ behind) := by
  induction text with
  | nil => exact Nat.zero_le _
  | cons letter text inductionHypothesis =>
      obtain ⟨first, others⟩ := List.forall_mem_cons.mp inside
      rw [List.cons_append, runLength, if_pos first]
      exact Nat.succ_le_succ (inductionHypothesis others)

/-- An escape without a code is read to the second letter, unless octal digits or a line end follow. -/
theorem escapeLength_letter (noCode : letter ≠ 'x' ∧ letter ≠ 'u') (rest : Text) :
    escapeLength ('\\' :: letter :: rest) =
      if isOctal letter then some (1 + min 3 (runLength isOctal (letter :: rest)))
      else if letter = '\r' || letter = '?' then
        match rest with
        | next :: _ => if isLineEnd next then some 3 else some 2
        | [] => some 2
      else some 2 := by
  rw [escapeLength.eq_def]
  split
  next _ same => exact absurd (List.cons.inj (List.cons.inj same).2).1 noCode.1
  next _ same => exact absurd (List.cons.inj (List.cons.inj same).2).1 noCode.2
  next _ _ same => exact absurd (List.cons.inj (List.cons.inj same).2).1 noCode.2
  next first others _ _ _ same =>
    obtain ⟨rfl, rfl⟩ := List.cons.inj (List.cons.inj same).2
    rfl
  next other => exact absurd rfl (other letter rest)

/-! ### Escapes -/

/-- How the reading of an escape compares with what it denotes: it is misread, or taken as it is
spelled and decoded to the same units. -/
def IsRead (spelled behind : Text) (units : List Nat) : Prop :=
  ∃ length, escapeLength ('\\' :: spelled ++ behind) = some length ∧
    (IsMisread (('\\' :: spelled ++ behind).take length) ∨
      length = spelled.length + 1 ∧ units = toUnits (escapedCharacter? spelled).toList)

/-- A letter that has no meaning of its own stands for itself. -/
theorem escapedCharacter?_letter
    (other : letter ∉ ['n', 't', 'r', 'b', 'f', 'v', '0', 'x', 'u', '\n', '\r']) :
    escapedCharacter? [letter] = some letter := by
  simp only [List.mem_cons, List.not_mem_nil, or_false, not_or] at other
  simp [escapedCharacter?, other]

/-- An escape that ends a line takes a separator behind it along. -/
theorem isMisread_of_isLineEnd {first second next : Char} (isEnd : isLineEnd next = true)
    (noFeed : next ≠ '\n') : IsMisread [first, second, next] := by
  have codes : next = '\u2028' ∨ next = '\u2029' := by
    simp only [isLineEnd, Bool.or_eq_true, beq_iff_eq] at isEnd
    rcases isEnd with (isFeed | isLine) | isParagraph
    · exact absurd (Char.toNat_inj.mp isFeed) noFeed
    · exact .inl (Char.toNat_inj.mp isLine)
    · exact .inr (Char.toNat_inj.mp isParagraph)
  refine .separator (codes.imp ?_ ?_) <;> rintro rfl <;> simp

/-- An escape of a single letter. -/
theorem isRead_letter (noCode : letter ≠ 'x' ∧ letter ≠ 'u') (noOctal : isOctal letter = false)
    (noFeed : behind.head? ≠ some '\n') (decoded : units = toUnits (escapedCharacter? [letter]).toList) :
    IsRead [letter] behind units := by
  have whole : '\\' :: [letter] ++ behind = '\\' :: letter :: behind := rfl
  rw [IsRead, whole, escapeLength_letter noCode, noOctal, if_neg Bool.false_ne_true]
  split
  next =>
    split
    next next behind =>
      split
      next isEnd =>
        exact ⟨3, rfl, .inl (isMisread_of_isLineEnd isEnd fun same => noFeed (congrArg some same))⟩
      next => exact ⟨2, rfl, .inr ⟨rfl, decoded⟩⟩
    next => exact ⟨2, rfl, .inr ⟨rfl, decoded⟩⟩
  next => exact ⟨2, rfl, .inr ⟨rfl, decoded⟩⟩

/-- A zero that no octal digit follows. -/
theorem isRead_zero (last : ∀ next, behind.head? = some next → isOctal next = false) :
    IsRead ['0'] behind [0] := by
  have run : runLength isOctal ('0' :: behind) = 1 :=
    runLength_append (List.forall_mem_singleton.mpr rfl) last
  refine ⟨2, ?_, .inr ⟨rfl, rfl⟩⟩
  exact (escapeLength_letter (by decide) behind).trans (by rw [run]; rfl)

theorem isOctal_of_not_isDigit (noDigit : isDigit letter = false) : isOctal letter = false := by
  rw [isDigit, Bool.and_eq_false_iff, decide_eq_false_iff_not, decide_eq_false_iff_not] at noDigit
  rw [isOctal, Bool.and_eq_false_iff, decide_eq_false_iff_not, decide_eq_false_iff_not]
  exact noDigit.imp_right fun above below => above (Char.le_trans below (by decide))

/-- Octal digits are misread where they begin with another digit, or where another digit follows. -/
theorem isRead_octal {others : Text} (isDigit : isOctal digit = true)
    (more : digit ≠ '0' ∨ ∃ next rest, others ++ behind = next :: rest ∧ isOctal next = true) :
    IsRead (digit :: others) behind units := by
  have taken : 1 ≤ runLength isOctal (digit :: (others ++ behind)) :=
    length_le_runLength (List.forall_mem_singleton.mpr isDigit) _
  obtain ⟨count, isCount⟩ := Nat.exists_eq_add_of_le'
    (Nat.le_min.mpr ⟨by decide, taken⟩ : 1 ≤ min 3 (runLength isOctal (digit :: (others ++ behind))))
  refine ⟨1 + (count + 1), ?_, .inl ?_⟩
  · have whole : '\\' :: digit :: others ++ behind = '\\' :: digit :: (others ++ behind) := rfl
    have noCode : digit ≠ 'x' ∧ digit ≠ 'u' := by
      refine ⟨?_, ?_⟩ <;> rintro rfl <;> cases isDigit
    rw [whole, escapeLength_letter noCode, if_pos isDigit, isCount]
  · have letters : ('\\' :: (digit :: others) ++ behind).take (1 + (count + 1)) =
        '\\' :: digit :: (others ++ behind).take count := by
      rw [Nat.add_comm]
      rfl
    rw [letters]
    refine .octal isDigit fun same => ?_
    obtain ⟨rfl, single⟩ := List.cons.inj same
    obtain ⟨next, rest, follows, isNext⟩ := more.resolve_left (not_not_intro rfl)
    have two : 2 ≤ runLength isOctal ('0' :: (others ++ behind)) := by
      rw [follows]
      exact length_le_runLength (List.forall_mem_cons.mpr ⟨isDigit,
        List.forall_mem_singleton.mpr isNext⟩) rest
    rw [follows] at single
    cases count with
    | zero => omega
    | succ count => cases single

theorem isRead_octalEscape (isNumeral : IsNumeral 8 digits number)
    (isOctalEscape : IsOctalEscape behind digits) : IsRead digits behind [number] := by
  have areOctal := isNumeral.isOctal
  cases isOctalEscape with
  | zero decimal =>
      rw [← isNumeral.eq_foldl]
      refine isRead_zero fun next isNext => ?_
      rcases decimal with isEight | isNine
      · obtain rfl := Option.some.inj (isNext.symm.trans isEight)
        rfl
      · obtain rfl := Option.some.inj (isNext.symm.trans isNine)
        rfl
  | one nonzero => exact isRead_octal (areOctal _ List.mem_cons_self) (.inl nonzero)
  | two | high | three =>
      obtain ⟨isFirst, others⟩ := List.forall_mem_cons.mp areOctal
      exact isRead_octal isFirst (.inr ⟨_, _, rfl, (List.forall_mem_cons.mp others).1⟩)

theorem escapeLength_unit (noBrace : text.head? ≠ some '{') :
    escapeLength ('\\' :: 'u' :: text) = if 4 ≤ runLength isHex text then some 6 else none := by
  rw [escapeLength.eq_def]
  split
  next _ same => exact absurd (List.cons.inj (List.cons.inj same).2).1 (by decide)
  next rest same =>
    obtain rfl := (List.cons.inj (List.cons.inj same).2).2
    exact absurd rfl noBrace
  next rest _ same =>
    obtain rfl := (List.cons.inj (List.cons.inj same).2).2
    rfl
  next first others _ _ noUnit same =>
    obtain ⟨rfl, rfl⟩ := List.cons.inj (List.cons.inj same).2
    exact absurd rfl noUnit
  next other => exact absurd rfl (other 'u' text)

theorem bracedHexLength_append (areHex : ∀ digit ∈ digits, isHex digit = true) (filled : digits ≠ [])
    (behind : Text) : bracedHexLength (digits ++ '}' :: behind) = some (digits.length + 1) := by
  have run : runLength isHex (digits ++ '}' :: behind) = digits.length :=
    runLength_append areHex fun letter isFirst => by
      obtain rfl := Option.some.inj isFirst
      rfl
  have some : digits.length ≠ 0 := fun none => filled (List.length_eq_zero_iff.mp none)
  rw [bracedHexLength, run]
  simp only [some, if_false, List.drop_left]

/-- Nothing is dropped in front of what fails the test. -/
theorem dropWhile_of_not {test : Char → Bool} (stops : ∀ letter, text.head? = some letter →
    test letter = false) : text.dropWhile test = text := by
  cases text with
  | nil => rfl
  | cons letter text => exact List.dropWhile_cons_of_neg (by rw [stops letter rfl]; simp)

theorem IsNumeral.withoutBraces {base : Nat} (isNumeral : IsNumeral base digits number) :
    withoutBraces digits = digits ∧ withoutBraces ('{' :: digits ++ ['}']) = digits := by
  have noBrace : ∀ digit ∈ digits, digit ≠ '{' ∧ digit ≠ '}' := by
    intro digit member
    have isHex := isNumeral.isHex digit member
    refine ⟨?_, ?_⟩ <;> rintro rfl <;> cases isHex
  have opens : digits.dropWhile (· = '{') = digits := dropWhile_of_not fun digit isFirst =>
    decide_eq_false (noBrace digit (List.mem_of_mem_head? isFirst)).1
  have closes : digits.reverse.dropWhile (· = '}') = digits.reverse :=
    dropWhile_of_not fun digit isFirst =>
      decide_eq_false (noBrace digit (List.mem_reverse.mp (List.mem_of_mem_head? isFirst))).2
  have whole : ('{' :: digits ++ ['}']).dropWhile (· = '{') = digits ++ ['}'] := by
    rw [List.cons_append, List.dropWhile_cons_of_pos rfl]
    refine dropWhile_of_not fun letter isFirst => ?_
    rcases List.mem_append.mp (List.mem_of_mem_head? isFirst) with isDigit | isBrace
    · exact decide_eq_false (noBrace letter isDigit).1
    · rw [List.mem_singleton.mp isBrace]
      rfl
  have last : (digits ++ ['}']).reverse.dropWhile (· = '}') = digits.reverse := by
    rw [List.reverse_append, List.reverse_singleton, List.singleton_append,
      List.dropWhile_cons_of_pos rfl, closes]
  rw [Script.withoutBraces, Script.withoutBraces, opens, closes, whole, last, List.reverse_reverse]
  exact ⟨rfl, rfl⟩

/-- The code of a character is decoded to it. -/
theorem toUnits_escapedCharacter? {first : Char} {coded : Text} (isCode : first = 'x' ∨ first = 'u')
    (spelled : coded ≠ []) (braces : withoutBraces coded = digits) (filled : digits ≠ [])
    (isNumeral : IsNumeral 16 digits number) (inside : number ≤ 0x10ffff)
    (plain : number < 0xd800 ∨ 0xe000 ≤ number) :
    toUnits (escapedCharacter? (first :: coded)).toList = unitsOf number := by
  obtain ⟨letter, isLetter, sameCode⟩ := exists_characterOf? inside plain
  have decoded : escapedCharacter? (first :: coded) =
      (hexNumber? (withoutBraces coded)).bind characterOf? := by
    obtain ⟨second, others, rfl⟩ := List.exists_cons_of_ne_nil spelled
    rcases isCode with rfl | rfl <;> rfl
  rw [decoded, braces, isNumeral.hexNumber? filled, Option.bind_some, isLetter, Option.toList_some,
    Text.toUnits_cons, Text.toUnits_nil, List.append_nil, sameCode]

/-- The code of a surrogate is decoded to nothing. -/
theorem escapedCharacter?_surrogate {coded : Text} (braces : withoutBraces coded = digits)
    (isNumeral : IsNumeral 16 digits number) (isSurrogate : 0xd800 ≤ number ∧ number < 0xe000) :
    escapedCharacter? ('u' :: coded) = none := by
  have decoded : escapedCharacter? ('u' :: coded) =
      (hexNumber? (withoutBraces coded)).bind characterOf? := by
    cases coded <;> rfl
  have filled : digits ≠ [] := by
    rintro rfl
    have isZero := isNumeral.eq_foldl
    rw [List.foldl_nil] at isZero
    omega
  have noCharacter : characterOf? number = none := by
    refine dif_neg fun valid => ?_
    rw [Nat.isValidChar] at valid
    omega
  rw [decoded, braces, isNumeral.hexNumber? filled, Option.bind_some, noCharacter]

/-- A test that every misread escape passes. -/
def looksMisread (letters : Text) : Bool :=
  (match letters with
    | '\\' :: first :: others => isOctal first && first :: others ≠ ['0'] ||
      first = 'u' && escapedCharacter? (first :: others) = none
    | _ => false) || '\u2028' ∈ letters || '\u2029' ∈ letters

theorem IsMisread.looksMisread {letters : Text} (isMisread : IsMisread letters) :
    looksMisread letters = true := by
  rw [Script.looksMisread.eq_def, Bool.or_assoc, Bool.or_eq_true]
  cases isMisread with
  | octal isDigit other => exact .inl (by simp [isDigit, other])
  | unit isNumeral isSurrogate =>
      have decoded := escapedCharacter?_surrogate isNumeral.withoutBraces.1 isNumeral isSurrogate
      exact .inl (by simp [decoded])
  | codePoint isNumeral isSurrogate =>
      have decoded := escapedCharacter?_surrogate isNumeral.withoutBraces.2 isNumeral isSurrogate
      rw [List.cons_append] at decoded
      exact .inl (by simp [decoded])
  | separator member =>
      rw [Bool.or_eq_true, decide_eq_true_eq, decide_eq_true_eq]
      exact .inr member

/-- However an escape is spelled, it is misread or decoded to what it denotes. -/
theorem EscapeDenotes.isRead (denotes : EscapeDenotes behind spelled units)
    (noFeed : behind.head? ≠ some '\n') : IsRead spelled behind units := by
  cases denotes with
  | @single letter value listed =>
      have every : ∀ pair ∈ singleEscapes, (pair.1 ≠ 'x' ∧ pair.1 ≠ 'u') ∧
          isOctal pair.1 = false ∧ escapedCharacter? [pair.1] = some pair.2 := by
        decide +kernel
      obtain ⟨noCode, noOctal, decoded⟩ := every _ listed
      refine isRead_letter noCode noOctal noFeed ?_
      rw [decoded, Option.toList_some, Text.toUnits_cons, Text.toUnits_nil, List.append_nil]
  | @itself letter unlisted noDigit noCode noEnd =>
      have decoded : escapedCharacter? [letter] = some letter := by
        refine escapedCharacter?_letter ?_
        simp only [List.mem_cons, List.not_mem_nil, or_false, not_or]
        refine ⟨?_, ?_, ?_, ?_, ?_, ?_, ?_, noCode.1, noCode.2, ?_, ?_⟩
        all_goals rintro rfl
        all_goals first
          | exact unlisted (by decide)
          | exact noEnd (by decide)
          | cases noDigit
      refine isRead_letter noCode (isOctal_of_not_isDigit noDigit) noFeed ?_
      rw [decoded, Option.toList_some, Text.toUnits_cons, Text.toUnits_nil, List.append_nil]
  | nul last => exact isRead_zero fun next isNext => isOctal_of_not_isDigit (last next isNext)
  | octal isNumeral isOctal => exact isRead_octalEscape isNumeral isOctal
  | decimal aboveOctal =>
      rcases aboveOctal with rfl | rfl
      · exact isRead_letter (by decide) (by decide) noFeed (by decide)
      · exact isRead_letter (by decide) (by decide) noFeed (by decide)
  | @hex digits number isNumeral two =>
      have filled : digits ≠ [] := fun none => by rw [none] at two; cases two
      have small : number < 16 ^ 2 := two ▸ isNumeral.lt
      have run := length_le_runLength isNumeral.isHex behind
      rw [two] at run
      refine ⟨4, if_pos run, .inr ⟨by rw [List.length_cons, two], ?_⟩⟩
      rw [toUnits_escapedCharacter? (.inl rfl) filled isNumeral.withoutBraces.1 filled isNumeral
        (by omega) (by omega), Text.unitsOf_of_lt (by omega)]
  | @unit digits number isNumeral four =>
      have filled : digits ≠ [] := fun none => by rw [none] at four; cases four
      have small : number < 16 ^ 4 := four ▸ isNumeral.lt
      have run := length_le_runLength isNumeral.isHex behind
      rw [four] at run
      have noBrace : (digits ++ behind).head? ≠ some '{' := by
        obtain ⟨first, others, rfl⟩ := List.exists_cons_of_ne_nil filled
        rintro isBrace
        obtain rfl := Option.some.inj isBrace
        cases isNumeral.isHex '{' List.mem_cons_self
      refine ⟨6, (escapeLength_unit noBrace).trans (if_pos run), ?_⟩
      by_cases isSurrogate : 0xd800 ≤ number ∧ number < 0xe000
      · have letters : ('\\' :: ('u' :: digits) ++ behind).take 6 = '\\' :: 'u' :: digits :=
          List.take_left' (by rw [List.length_cons, List.length_cons, four])
        left
        rw [letters]
        exact .unit isNumeral isSurrogate
      · refine .inr ⟨by rw [List.length_cons, four], ?_⟩
        rw [toUnits_escapedCharacter? (.inr rfl) filled isNumeral.withoutBraces.1 filled isNumeral
          (by omega) (by omega), Text.unitsOf_of_lt (by omega)]
  | @codePoint digits number isNumeral filled inside =>
      have braced : escapeLength ('\\' :: ('u' :: '{' :: digits ++ ['}']) ++ behind) =
          some (digits.length + 4) := by
        have apart : '\\' :: ('u' :: '{' :: digits ++ ['}']) ++ behind =
            '\\' :: 'u' :: '{' :: (digits ++ '}' :: behind) := by simp
        rw [apart, escapeLength, bracedHexLength_append isNumeral.isHex filled]
        rfl
      refine ⟨digits.length + 4, braced, ?_⟩
      by_cases isSurrogate : 0xd800 ≤ number ∧ number < 0xe000
      · have letters : ('\\' :: ('u' :: '{' :: digits ++ ['}']) ++ behind).take (digits.length + 4) =
            '\\' :: 'u' :: '{' :: digits ++ ['}'] :=
          List.take_left' (by simp)
        left
        rw [letters]
        exact .codePoint isNumeral isSurrogate
      · refine .inr ⟨by simp, ?_⟩
        exact (toUnits_escapedCharacter? (.inr rfl) (List.cons_ne_nil _ _) isNumeral.withoutBraces.2
          filled isNumeral inside (by omega)).symm
  | @continuation letter isEnd single =>
      simp only [lineTerminators, List.mem_cons, List.not_mem_nil, or_false] at isEnd
      rcases isEnd with rfl | rfl | rfl | rfl
      · exact isRead_letter (by decide) (by decide) noFeed rfl
      · exact isRead_letter (by decide) (by decide) noFeed rfl
      · exact ⟨2, rfl, .inl (.separator (by simp))⟩
      · exact ⟨2, rfl, .inl (.separator (by simp))⟩
  | wideContinuation => exact ⟨3, rfl, .inr ⟨rfl, rfl⟩⟩

/-! ### The parts of a literal -/

/-- The parts that are read behind a quote, up to where none is. -/
inductive IsParts (quote : Char) : Text → List Tree → Prop where
  | nil {text : Text} (noFragment : fragmentLength quote text = none)
      (noEscape : escapeLength text = none) : IsParts quote text []
  | fragment {text : Text} {parts : List Tree} {length : Nat}
      (found : fragmentLength quote text = some length) (behind : IsParts quote (text.drop length) parts) :
      IsParts quote text (.leaf none .stringFragment (text.take length) :: parts)
  | escape {text : Text} {parts : List Tree} {length : Nat} (found : escapeLength text = some length)
      (behind : IsParts quote (text.drop length) parts) :
      IsParts quote text (.leaf none .escapeSequence (text.take length) :: parts)

/-- An escape looks no further than to the next character. -/
theorem EscapeDenotes.congr {other : Text} (denotes : EscapeDenotes behind spelled units)
    (same : other.head? = behind.head?) : EscapeDenotes other spelled units := by
  cases denotes with
  | single listed => exact .single listed
  | itself unlisted noDigit noCode noEnd => exact .itself unlisted noDigit noCode noEnd
  | nul last => exact .nul (same ▸ last)
  | octal isNumeral isOctal =>
      refine .octal isNumeral ?_
      cases isOctal with
      | zero decimal => exact .zero (same ▸ decimal)
      | one nonzero last => exact .one nonzero (same ▸ last)
      | two low last => exact .two low (same ▸ last)
      | high high => exact .high high
      | three low => exact .three low
  | decimal aboveOctal => exact .decimal aboveOctal
  | hex isNumeral two => exact .hex isNumeral two
  | unit isNumeral four => exact .unit isNumeral four
  | codePoint isNumeral filled inside => exact .codePoint isNumeral filled inside
  | continuation isEnd single => exact .continuation isEnd (same ▸ single)
  | wideContinuation => exact .wideContinuation

/-- What follows the closing quote does not matter. -/
theorem Denotes.append (denotes : Denotes quote text units rest) (after : Text) :
    Denotes quote (text ++ after) units (rest ++ after) := by
  induction denotes with
  | close rest => exact .close (rest ++ after)
  | plain noQuote noEscape sameLine _ inductionHypothesis =>
      exact .plain noQuote noEscape sameLine inductionHypothesis
  | @escape spelled behind rest first units isEscape denotes inductionHypothesis =>
      have same : (behind ++ after).head? = behind.head? := by
        cases denotes <;> rfl
      rw [List.append_assoc]
      exact .escape (isEscape.congr same) inductionHypothesis

/-- No line ends in a literal. -/
theorem Denotes.head?_ne (isQuote : quote = '\x22' ∨ quote = '\x27')
    (denotes : Denotes quote text units rest) : text.head? ≠ some '\n' := by
  intro isFeed
  cases denotes with
  | close => rcases isQuote with rfl | rfl <;> cases isFeed
  | plain _ _ sameLine => exact sameLine.1 (Option.some.inj isFeed)
  | escape => cases isFeed

theorem Denotes.of_plain {front : Text} (denotes : Denotes quote (front ++ behind) units rest)
    (plain : ∀ letter ∈ front, letter ≠ quote ∧ letter ≠ '\\') :
    ∃ later, units = toUnits front ++ later ∧ Denotes quote behind later rest := by
  induction front generalizing units with
  | nil => exact ⟨units, rfl, denotes⟩
  | cons letter front inductionHypothesis =>
      obtain ⟨⟨noQuote, noEscape⟩, plain⟩ := List.forall_mem_cons.mp plain
      rw [List.cons_append] at denotes
      generalize whole : letter :: (front ++ behind) = all at denotes
      cases denotes with
      | close => exact absurd (List.cons.inj whole).1 noQuote
      | plain _ _ _ denotes =>
          obtain ⟨rfl, rfl⟩ := List.cons.inj whole
          obtain ⟨later, rfl, denotesBehind⟩ := inductionHypothesis denotes plain
          exact ⟨later, by rw [Text.toUnits_cons, List.append_assoc], denotesBehind⟩
      | escape => exact absurd (List.cons.inj whole).1 noEscape

/-- What is read as plain text is plain. -/
theorem exists_fragment (found : fragmentLength quote text = some length) :
    ∀ letter ∈ text.take length, letter ≠ quote ∧ letter ≠ '\\' := by
  obtain ⟨front, behind, rfl, inside, stops⟩ := exists_run (fun letter =>
    letter ≠ quote && letter ≠ '\\' && letter ≠ '\r' && letter ≠ '\n') text
  rw [fragmentLength, runLength_append inside stops] at found
  obtain rfl : front.length = length := by
    split at found
    next => cases found
    next => exact Option.some.inj found
  rw [List.take_left]
  intro letter member
  have plain := inside letter member
  simp only [Bool.and_eq_true, decide_eq_true_eq] at plain
  exact plain.1.1

theorem fragmentLength_ne_none (noQuote : letter ≠ quote) (noEscape : letter ≠ '\\')
    (sameLine : letter ≠ '\n' ∧ letter ≠ '\r') (behind : Text) :
    fragmentLength quote (letter :: behind) ≠ none := by
  have plain : (letter ≠ quote && letter ≠ '\\' && letter ≠ '\r' && letter ≠ '\n') = true := by
    simp only [Bool.and_eq_true, decide_eq_true_eq]
    exact ⟨⟨⟨noQuote, noEscape⟩, sameLine.2⟩, sameLine.1⟩
  rw [fragmentLength, runLength, if_pos plain]
  exact Option.some_ne_none _

theorem head?_of_escapeLength (found : escapeLength text = some length) : text.head? = some '\\' := by
  rw [escapeLength.eq_def] at found
  split at found
  · rfl
  · rfl
  · rfl
  · rfl
  · cases found

/-- The value of the parts is what the text denotes that they were read from. -/
theorem IsParts.toUnits_eq {parts : List Tree} (isQuote : quote = '\x22' ∨ quote = '\x27')
    (isParts : IsParts quote text parts) (denotes : Denotes quote text units rest)
    (noneMisread : ∀ part ∈ parts, part.kind = .escapeSequence → ¬ IsMisread part.text) :
    units = toUnits (parts.flatMap partValue) := by
  induction isParts generalizing units with
  | nil noFragment noEscape =>
      cases denotes with
      | close => rfl
      | plain noQuote noBackslash sameLine =>
          exact absurd noFragment (fragmentLength_ne_none noQuote noBackslash sameLine _)
      | escape isEscape denotes =>
          obtain ⟨length, found, _⟩ := isEscape.isRead (denotes.head?_ne isQuote)
          cases noEscape.symm.trans found
  | @fragment text parts length found behind inductionHypothesis =>
      obtain ⟨_, noneMisread⟩ := List.forall_mem_cons.mp noneMisread
      rw [← List.take_append_drop length text] at denotes
      obtain ⟨later, rfl, denotesBehind⟩ := denotes.of_plain (exists_fragment found)
      rw [inductionHypothesis denotesBehind noneMisread, List.flatMap_cons, Text.toUnits_append]
      rfl
  | @escape text parts length found behind inductionHypothesis =>
      obtain ⟨plainlyRead, othersRead⟩ := List.forall_mem_cons.mp noneMisread
      cases denotes with
      | close => rcases isQuote with rfl | rfl <;> cases found
      | plain _ noEscape => exact absurd (Option.some.inj (head?_of_escapeLength found)) noEscape
      | @escape spelled after _ first later isEscape denotes =>
          obtain ⟨known, isKnown, isRead⟩ := isEscape.isRead (denotes.head?_ne isQuote)
          obtain rfl := Option.some.inj (isKnown.symm.trans found)
          obtain ⟨rfl, rfl⟩ := isRead.resolve_left (plainlyRead rfl)
          have taken : ('\\' :: spelled ++ after).take (spelled.length + 1) = '\\' :: spelled :=
            List.take_left' rfl
          have left : ('\\' :: spelled ++ after).drop (spelled.length + 1) = after :=
            List.drop_left' rfl
          rw [left] at inductionHypothesis
          rw [taken, inductionHypothesis denotes othersRead, List.flatMap_cons, Text.toUnits_append]
          rfl

end ImportMeter.Script
