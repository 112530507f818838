/-
This file checks the script grammar, rule by rule: every node that a rule builds gets the children
that its kind asks for.
-/
import ImportMeter.Proofs.Script.Shape
import ImportMeter.Proofs.Text
import ImportMeter.Script.Grammar

namespace ImportMeter.Script

open ImportMeter.Script.Tree

/-- A text that some lexeme takes as a whole. -/
def Lexeme.Takes (lexeme : Lexeme) (letters : Text) : Prop :=
  ∃ text length, lexeme.length? text = some length ∧ letters = text.take length

/-- True if whatever the lexeme takes begins with a character that is not blank. -/
def Lexeme.isName : Lexeme → Bool
  | .name _ | .markupName => true
  | _ => false

/-- True if a token of a kind may be read with a lexeme. -/
def Lexeme.suits (lexeme : Lexeme) (kind : Kind) : Bool :=
  kind.isToken && (kind ≠ .identifier || lexeme.isName) &&
    (kind ≠ .importWord || match lexeme with
      | .word letters => letters = Word.importWord
      | _ => false)

theorem isBlank_of_namePart {letter : Char} (part : isNamePart letter = true) :
    isBlank letter = false := by
  simp only [isNamePart, Bool.and_eq_true, Bool.not_eq_true'] at part
  exact part.2

theorem nameTailLength_start {letter : Char} {rest : Text}
    (start : (isNameStart letter || (nameEscapeLength (letter :: rest)).isSome) = true) :
    ∃ length, nameTailLength 0 (letter :: rest) = length + 1 ∧ isBlank letter = false := by
  rw [Bool.or_eq_true] at start
  rcases start with start | escape
  · have part : isNamePart letter = true := by
      simp only [isNameStart, Bool.and_eq_true] at start
      exact start.1
    exact ⟨nameTailLength 0 rest, by simp only [nameTailLength, part, if_true],
      isBlank_of_namePart part⟩
  · unfold nameEscapeLength at escape
    split at escape
    case h_1 text tail same =>
      obtain ⟨rfl, rfl⟩ := List.cons.inj same
      have notPart : isNamePart '\\' = false := by decide
      obtain ⟨length, found⟩ := Option.isSome_iff_exists.mp escape
      obtain ⟨digits, braced, rfl⟩ := Option.map_eq_some_iff.mp found
      refine ⟨nameTailLength (digits + 2) ('u' :: '{' :: tail), ?_, by decide⟩
      simp [nameTailLength, notPart, nameEscapeLength, braced]
    case h_2 text tail other same =>
      obtain ⟨rfl, rfl⟩ := List.cons.inj same
      have notPart : isNamePart '\\' = false := by decide
      obtain ⟨length, found⟩ := Option.isSome_iff_exists.mp escape
      have enough : 4 ≤ runLength isHex tail := by
        by_cases enough : 4 ≤ runLength isHex tail
        · exact enough
        · rw [if_neg enough] at found
          cases found
      refine ⟨nameTailLength 5 ('u' :: tail), ?_, by decide⟩
      simp [nameTailLength, notPart, nameEscapeLength, enough]
    case h_3 => exact absurd escape (by simp)

/-- A name begins with a character that is not blank. -/
theorem nameLength_take {text : Text} {length : Nat} (found : nameLength text = some length) :
    ∃ first rest, text.take length = first :: rest ∧ isBlank first = false := by
  cases text with
  | nil => simp [nameLength] at found
  | cons letter rest =>
      simp only [nameLength] at found
      split at found
      next start =>
        obtain ⟨tail, same, notBlank⟩ := nameTailLength_start start
        cases found
        exact ⟨letter, rest.take tail, by rw [same, List.take_succ_cons], notBlank⟩
      next => cases found

/-- The visible ASCII characters are not blank. -/
theorem isBlank_of_visible {letter : Char} (low : 0x21 ≤ letter.toNat)
    (high : letter.toNat ≤ 0x7e) : isBlank letter = false := by
  simp only [isBlank, Bool.or_eq_false_iff, Bool.and_eq_false_iff, beq_eq_false_iff_ne,
    decide_eq_false_iff_not]
  omega

theorem isLetter_visible {letter : Char} (isLetter : isLetter letter = true) :
    0x41 ≤ letter.toNat ∧ letter.toNat ≤ 0x7a := by
  simp only [Script.isLetter, Bool.or_eq_true, Bool.and_eq_true, decide_eq_true_eq] at isLetter
  rcases isLetter with ⟨low, high⟩ | ⟨low, high⟩
  · have low : ('a' : Char).toNat ≤ letter.toNat := low
    have high : letter.toNat ≤ ('z' : Char).toNat := high
    exact ⟨Nat.le_trans (by decide) low, high⟩
  · have low : ('A' : Char).toNat ≤ letter.toNat := low
    have high : letter.toNat ≤ ('Z' : Char).toNat := high
    exact ⟨low, Nat.le_trans high (by decide)⟩

/-- So does the name of a tag. -/
theorem markupNameLength_take {text : Text} {length : Nat}
    (found : markupNameLength text = some length) :
    ∃ first rest, text.take length = first :: rest ∧ isBlank first = false := by
  unfold markupNameLength at found
  dsimp only at found
  split at found
  next first others _ _ =>
    split at found
    next start =>
      cases found
      refine ⟨first, _, by rw [Nat.add_right_comm, List.take_succ_cons], ?_⟩
      simp only [Bool.or_eq_true, decide_eq_true_eq] at start
      rcases start with (letter | rfl) | rfl
      · have visible := isLetter_visible letter
        exact isBlank_of_visible (Nat.le_trans (by decide) visible.1)
          (Nat.le_trans visible.2 (by decide))
      · decide
      · decide
    next => exact nameLength_take found
  next => exact nameLength_take found

/-! ### Lexemes that are spelled out -/

namespace Rule

variable {letters taken : Text}

theorem takes_mark (takes : (Lexeme.mark letters).Takes taken) : taken = letters := by
  obtain ⟨text, length, found, rfl⟩ := takes
  simp only [Lexeme.length?] at found
  split at found <;> cases found
  next starts => exact Text.take_of_startsWith (Bool.and_eq_true_iff.mp starts).1

theorem takes_exact (takes : (Lexeme.exact letters).Takes taken) : taken = letters := by
  obtain ⟨text, length, found, rfl⟩ := takes
  simp only [Lexeme.length?] at found
  split at found <;> cases found
  next starts => exact Text.take_of_startsWith starts

theorem takes_word (takes : (Lexeme.word letters).Takes taken) : taken = letters := by
  obtain ⟨text, length, found, rfl⟩ := takes
  simp only [Lexeme.length?] at found
  split at found <;> cases found
  next starts => exact Text.take_of_startsWith (Bool.and_eq_true_iff.mp starts).2

end Rule

/-- What a lexeme takes has the shape of a leaf of the kinds that it suits. -/
theorem Lexeme.suits_leafShape {lexeme : Lexeme} {kind : Kind} {letters : Text}
    (suits : lexeme.suits kind = true) (takes : lexeme.Takes letters) :
    LeafShape kind letters := by
  obtain ⟨text, length, found, rfl⟩ := takes
  simp only [Lexeme.suits, Bool.and_eq_true, Bool.or_eq_true, decide_eq_true_eq] at suits
  obtain ⟨⟨token, name⟩, word⟩ := suits
  refine ⟨token, fun identifier => ?_, fun importWord => ?_⟩
  · have isName := name.resolve_left (not_not_intro identifier)
    cases lexeme with
    | name reserved =>
        obtain ⟨named, same, other⟩ := Option.bind_eq_some_iff.mp found
        split at other
        · cases other
        · cases other
          exact nameLength_take same
    | markupName => exact markupNameLength_take found
    | _ => cases isName
  · have isWord := word.resolve_left (not_not_intro importWord)
    cases lexeme with
    | word letters =>
        have same : letters = Word.importWord := of_decide_eq_true isWord
        subst same
        exact Rule.takes_word ⟨text, length, found, rfl⟩
    | _ => cases isWord

namespace Rule

variable {Symbol : Type}

/-- True if what a rule reads begins with a certain token, white space and comments apart. -/
def opensWith (letters : Text) : Rule Symbol → Bool
  | .token kind lexeme => kind = .mark && match lexeme with
    | .mark same | .word same => same = letters
    | _ => false
  | .all (rule :: _) => opensWith letters rule
  | .within _ rule => opensWith letters rule
  | _ => false

/-- True if what a rule reads ends with a certain token. -/
def closesWith (letters : Text) : Rule Symbol → Bool
  | .token kind lexeme => kind = .mark && match lexeme with
    | .mark same | .word same => same = letters
    | _ => false
  | .all rules => closesLast rules
  | .within _ rule => closesWith letters rule
  | .commit rule => closesWith letters rule
  | _ => false
where
  closesLast : List (Rule Symbol) → Bool
    | [] => false
    | [last] => closesWith letters last
    | _ :: rest => closesLast rest

/-- True if a rule reads tokens only. -/
def isFlat : Rule Symbol → Bool
  | .token _ _ | .glued _ _ | .gap => true
  | .all rules => allFlat rules
  | .any rules => allFlat rules
  | .many rule => isFlat rule
  | _ => false
where
  allFlat : List (Rule Symbol) → Bool
    | [] => true
    | rule :: rules => isFlat rule && allFlat rules

/-- True if a rule reads one node, white space and comments apart. -/
def isSingle (grammar : Symbol → Rule Symbol) : Rule Symbol → Bool
  | .ref symbol => match grammar symbol with
    | .node _ rule => rule.opensWith ['('] || rule.opensWith ['\x60']
    | _ => false
  | _ => false

/-- True if a rule reads the arguments of a call, perhaps with an optional chain in front. -/
def isCallEnd (grammar : Symbol → Rule Symbol) : Rule Symbol → Bool
  | .part .arguments list => list.isSingle grammar
  | .all [.token .optionalChain _, .part .arguments list] => list.isSingle grammar
  | _ => false

/-- True if a rule reads a token that is called, and its arguments. -/
def isCall (grammar : Symbol → Rule Symbol) : Rule Symbol → Bool
  | .all [.part .callee (.token kind _), .part .arguments list] =>
    !kind.isTrivia && list.isSingle grammar
  | _ => false

/-- True if what a rule reads has the shape that a node of a kind asks of its children. -/
def suits (grammar : Symbol → Rule Symbol) (rule : Rule Symbol) (kind : Kind) : Bool :=
  !kind.isToken && match kind with
    | .arguments => rule.opensWith ['('] && rule.closesWith [')']
    | .string => rule.isFlat
    | .importStatement => rule.opensWith Word.importWord
    | .callExpression => rule.isCall grammar
    | _ => true

/-- True if what follows an expression makes up a node of the link's kind together with it. -/
def linkSuits (grammar : Symbol → Rule Symbol) (kind : Kind) (role : Option Role)
    (rest : Rule Symbol) : Bool :=
  !kind.isToken && match kind with
    | .arguments | .string | .importStatement => false
    | .callExpression => role = some .callee && rest.isCallEnd grammar
    | _ => true

/-- True if every node that a rule builds gets the children that its kind asks for. -/
def isShaped (grammar : Symbol → Rule Symbol) : Rule Symbol → Bool
  | .token kind lexeme | .glued kind lexeme => lexeme.suits kind
  | .gap | .semicolon | .unbroken _ | .ref _ | .endExpression | .reopen => true
  | .all rules => allShaped rules
  | .any rules => allShaped rules
  | .many rule | .part _ rule | .only _ rule | .unless rule | .commit rule | .within _ rule =>
    isShaped grammar rule
  | .node kind rule => isShaped grammar rule && rule.suits grammar kind
  | .chain base links => isShaped grammar base && linksShaped links
where
  allShaped : List (Rule Symbol) → Bool
    | [] => true
    | rule :: rules => isShaped grammar rule && allShaped rules
  linksShaped : List (Link (Rule Symbol)) → Bool
    | [] => true
    | ⟨_, role, kind, rest⟩ :: links =>
      isShaped grammar rest && linkSuits grammar kind role rest && linksShaped links

end Rule

namespace Rule

theorem linksShaped_iff {Symbol : Type} (grammar : Symbol → Rule Symbol)
    (links : List (Link (Rule Symbol))) :
    isShaped.linksShaped grammar links = true ↔ ∀ link ∈ links,
      link.rest.isShaped grammar = true ∧
        linkSuits grammar link.kind link.role link.rest = true := by
  induction links with
  | nil => simp [isShaped.linksShaped]
  | cons link links inductionHypothesis =>
      simp only [isShaped.linksShaped, Bool.and_eq_true, inductionHypothesis, List.forall_mem_cons]

theorem allShaped_iff {Symbol : Type} (grammar : Symbol → Rule Symbol)
    (rules : List (Rule Symbol)) :
    isShaped.allShaped grammar rules = true ↔ ∀ rule ∈ rules, rule.isShaped grammar = true := by
  induction rules with
  | nil => simp [isShaped.allShaped]
  | cons rule rules inductionHypothesis =>
      simp only [isShaped.allShaped, Bool.and_eq_true, inductionHypothesis, List.forall_mem_cons]

end Rule

/-- A property of the rules of all levels of operators need only be checked for the levels that there are
and for one above them. -/
theorem forall_binary (holds : Phrase → Prop) (each : ∀ level < 12, holds (Phrase.binary level))
    (level : Nat) : holds (Phrase.binary level) := by
  by_cases low : level < 12
  · exact each level low
  · have highest : ∀ operator ∈ Phrase.operators, operator.level < 11 := by decide
    have none : ∀ bound, 11 ≤ bound → Phrase.operators.filter (bound ≤ ·.level) = [] := by
      intro bound above
      rw [List.filter_eq_nil_iff]
      intro operator member
      have below := highest operator member
      rw [decide_eq_true_eq]
      omega
    have same : Phrase.binary level = Phrase.binary 11 := by
      rw [Phrase.binary, Phrase.binary, none level (by omega), none 11 (Nat.le_refl 11)]
    rw [same]
    exact each 11 (by decide)

/-- The rules of scripts pass the check. -/
theorem grammar_isShaped (symbol : Symbol) : (grammar symbol).isShaped grammar = true := by
  cases symbol with
  | binary level =>
      exact forall_binary (fun phrase => phrase.isShaped grammar = true) (by decide +kernel) level
  | _ => decide +kernel

theorem script_isShaped : script.isShaped grammar = true := by
  decide +kernel

/-- What white space and comments look like. -/
structure GapShape (kind : Kind) (letters : Text) : Prop where
  isTrivia : kind.isTrivia = true
  /-- Neither begins like a part of a name. -/
  opens : ∃ first rest, letters = first :: rest ∧ isNamePart first = false ∧ first ≠ '\\'
  htmlComment : kind = .htmlComment → 3 ≤ letters.length

/-- White space and comments, as they stand between two tokens. -/
def IsGap (trees : List Tree) : Prop :=
  ∀ tree ∈ trees, ∃ kind letters, tree = .leaf none kind letters ∧ GapShape kind letters

namespace IsGap

theorem nil : IsGap [] := by
  intro tree member
  cases member

theorem append {first second : List Tree} (firstGap : IsGap first) (secondGap : IsGap second) :
    IsGap (first ++ second) := by
  intro tree member
  rcases List.mem_append.mp member with inFirst | inSecond
  · exact firstGap tree inFirst
  · exact secondGap tree inSecond

theorem single {kind : Kind} {letters : Text} (shape : GapShape kind letters) :
    IsGap [.leaf none kind letters] := by
  intro tree member
  rw [List.mem_singleton] at member
  exact ⟨kind, letters, member, shape⟩

theorem isTrivia {trees : List Tree} (gap : IsGap trees) : ∀ tree ∈ trees, tree.isTrivia = true := by
  intro tree member
  obtain ⟨kind, letters, rfl, shape⟩ := gap tree member
  exact shape.isTrivia

theorem wellFormed {trees : List Tree} (gap : IsGap trees) : ∀ tree ∈ trees, WellFormed tree := by
  intro tree member
  obtain ⟨kind, letters, rfl, trivia, -, -⟩ := gap tree member
  cases kind <;> first
    | exact absurd trivia (by decide)
    | exact WellFormed.leaf ⟨rfl, nofun, nofun⟩

theorem betweenCall {trees : List Tree} (gap : IsGap trees) : ∀ tree ∈ trees, BetweenCall tree := by
  intro tree member
  obtain ⟨kind, letters, same, shape⟩ := gap tree member
  exact ⟨kind, letters, same, .inl shape.isTrivia⟩

end IsGap

theorem not_namePart_of_isBlank {letter : Char} (blank : isBlank letter = true) :
    isNamePart letter = false ∧ letter ≠ '\\' := by
  refine ⟨?_, ?_⟩
  · rw [isNamePart, blank, Bool.not_true, Bool.and_false]
  · rintro rfl
    cases blank

theorem blanksOf_sound (text : Text) :
    IsGap (blanksOf text).1 ∧ textOfAll (blanksOf text).1 ++ (blanksOf text).2 = text := by
  unfold blanksOf
  split
  next => exact ⟨IsGap.nil, rfl⟩
  next positive =>
    refine ⟨IsGap.single ⟨rfl, ?_, nofun⟩, by simp⟩
    cases text with
    | nil => exact absurd rfl positive
    | cons letter rest =>
        rw [runLength] at positive ⊢
        split at positive
        next blank => exact ⟨letter, _, by rw [if_pos blank, List.take_succ_cons],
          not_namePart_of_isBlank blank⟩
        next => exact absurd rfl positive

theorem commentLength_shape {markup : Bool} {text : Text} {kind : Kind} {length : Nat}
    (found : commentLength markup text = some (kind, length)) : GapShape kind (text.take length) := by
  have opens : ∀ {first : Char} {rest : Text} {length : Nat}, 0 < length →
      isNamePart first = false → first ≠ '\\' →
      ∃ letter others, (first :: rest).take length = letter :: others ∧ isNamePart letter = false ∧
        letter ≠ '\\' :=
    fun positive notPart notEscape => ⟨_, _, List.take_cons positive, notPart, notEscape⟩
  unfold commentLength at found
  split at found
  · cases found
    exact ⟨rfl, opens (by omega) (by decide) (by decide), nofun⟩
  · obtain ⟨tail, _, same⟩ := Option.map_eq_some_iff.mp found
    cases same
    exact ⟨rfl, opens (Nat.succ_pos _) (by decide) (by decide), nofun⟩
  · split at found
    · cases found
      refine ⟨rfl, opens (by omega) (by decide) (by decide), fun _ => ?_⟩
      simp only [List.length_take, List.length_cons]
      omega
    · cases found
  · split at found
    · cases found
      refine ⟨rfl, opens (by omega) (by decide) (by decide), fun _ => ?_⟩
      simp only [List.length_take, List.length_cons]
      omega
    · cases found
  · cases found

theorem commentOf_sound {markup : Bool} {text rest : Text} {trees : List Tree}
    (found : commentOf markup text = some (trees, rest)) :
    IsGap trees ∧ textOfAll trees ++ rest = text := by
  have sound := blanksOf_sound text
  unfold commentOf at found
  generalize blanksOf text = blanks at found sound
  obtain ⟨blank, kept⟩ := sound
  obtain ⟨⟨kind, length⟩, comment, same⟩ := Option.map_eq_some_iff.mp found
  cases same
  refine ⟨blank.append (IsGap.single (commentLength_shape comment)), ?_⟩
  rw [textOfAll_append, List.append_assoc]
  simpa using kept

/-- What stands between two tokens is kept as it is. -/
theorem gapOf_sound (markup : Bool) (fuel : Nat) (text : Text) :
    IsGap (gapOf markup fuel text).1 ∧
      textOfAll (gapOf markup fuel text).1 ++ (gapOf markup fuel text).2 = text := by
  induction fuel generalizing text with
  | zero => exact ⟨IsGap.nil, rfl⟩
  | succ fuel inductionHypothesis =>
      unfold gapOf
      split
      next trees rest found =>
        obtain ⟨gap, kept⟩ := commentOf_sound found
        obtain ⟨more, keptMore⟩ := inductionHypothesis rest
        refine ⟨gap.append more, ?_⟩
        rw [textOfAll_append, List.append_assoc, keptMore, kept]
      next => exact blanksOf_sound text

end ImportMeter.Script
