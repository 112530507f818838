/-
This file proves that the depth to which a script is followed never runs out: every rule takes a
character before it comes back to itself, and between two characters it stays within a fixed depth.
-/
import ImportMeter.Proofs.Script.Reading

namespace ImportMeter.Script

variable {text rest : Text} {length fuel : Nat}

/-! ### What tokens take -/

namespace Lexeme

/-- True if the lexeme never takes the empty text. -/
def consumes : Lexeme → Bool
  | .mark letters | .exact letters | .word letters => letters ≠ []
  | .markAmong choices => !choices.contains []
  | _ => true

theorem take_ne_nil_of_startsWith {letters : Text} (filled : letters ≠ [])
    (starts : text.startsWith letters = true) : text.take letters.length ≠ [] := by
  rw [Text.take_of_startsWith starts]
  exact filled

theorem take_ne_nil (positive : text ≠ [] ∧ 0 < length) : text.take length ≠ [] := by
  rw [Ne, List.take_eq_nil_iff]
  exact not_or.mpr ⟨Nat.pos_iff_ne_zero.mp positive.2, positive.1⟩

theorem digitsLength_pos {test : Char → Bool} (found : digitsLength test text = some length) :
    text ≠ [] ∧ 0 < length := by
  cases text with
  | nil => cases found
  | cons letter rest =>
      rw [digitsLength] at found
      split at found <;> cases found
      exact ⟨List.cons_ne_nil _ _, Nat.succ_pos _⟩

theorem wholePartLength_pos (found : wholePartLength text = some length) :
    text ≠ [] ∧ 0 < length := by
  unfold wholePartLength at found
  split at found
  · split at found <;> cases found <;> exact ⟨List.cons_ne_nil _ _, Nat.succ_pos _⟩
  · cases found
    exact ⟨List.cons_ne_nil _ _, Nat.succ_pos _⟩
  · split at found <;> cases found
    exact ⟨List.cons_ne_nil _ _, Nat.succ_pos _⟩
  · cases found

theorem decimalLength_pos (found : decimalLength text = some length) : text ≠ [] ∧ 0 < length := by
  unfold decimalLength at found
  split at found
  · obtain ⟨digits, _, rfl⟩ := Option.map_eq_some_iff.mp found
    exact ⟨List.cons_ne_nil _ _, by omega⟩
  · obtain ⟨whole, isWhole, more⟩ := Option.bind_eq_some_iff.mp found
    obtain ⟨some, positive⟩ := wholePartLength_pos isWhole
    refine ⟨some, ?_⟩
    split at more
    · cases more
      omega
    · obtain ⟨exponent, _, rfl⟩ := Option.map_eq_some_iff.mp more
      omega

theorem radixLength_pos (found : radixLength text = some length) : text ≠ [] ∧ 0 < length := by
  unfold radixLength at found
  split at found
  · refine ⟨List.cons_ne_nil _ _, ?_⟩
    repeat' split at found
    all_goals
      first
      | cases found
      | obtain ⟨digits, _, rfl⟩ := Option.map_eq_some_iff.mp found
        exact Nat.succ_pos _
  · cases found

theorem integerLength_pos (found : integerLength text = some length) : text ≠ [] ∧ 0 < length := by
  obtain ⟨digits, isDigits, rfl⟩ := Option.map_eq_some_iff.mp found
  have positive : text ≠ [] ∧ 0 < digits := by
    cases radix : radixLength text with
    | some other =>
        rw [radix] at isDigits
        cases isDigits
        exact radixLength_pos radix
    | none =>
        rw [radix] at isDigits
        exact digitsLength_pos isDigits
  refine ⟨positive.1, ?_⟩
  split <;> omega

theorem numberLength_pos (found : numberLength text = some length) : text ≠ [] ∧ 0 < length := by
  unfold numberLength at found
  split at found
  next first second isDecimal _ =>
    cases found
    obtain ⟨some, positive⟩ := decimalLength_pos isDecimal
    exact ⟨some, by omega⟩
  next first isDecimal _ =>
    cases found
    exact decimalLength_pos isDecimal
  next => exact integerLength_pos found

theorem escapeLength_pos (found : escapeLength text = some length) : text ≠ [] ∧ 0 < length := by
  unfold escapeLength at found
  split at found
  · refine ⟨List.cons_ne_nil _ _, ?_⟩
    split at found <;> cases found
    omega
  · obtain ⟨digits, _, rfl⟩ := Option.map_eq_some_iff.mp found
    exact ⟨List.cons_ne_nil _ _, by omega⟩
  · refine ⟨List.cons_ne_nil _ _, ?_⟩
    split at found <;> cases found
    omega
  · refine ⟨List.cons_ne_nil _ _, ?_⟩
    repeat' split at found
    all_goals
      cases found
      omega
  · cases found

theorem referenceLength_pos (found : referenceLength text = some length) :
    text ≠ [] ∧ 0 < length := by
  have closed : ∀ {before run most : Nat} {text : Text},
      referenceLength.closed before run most text = some length → 0 < length := by
    intro before run most text found
    rw [referenceLength.closed] at found
    split at found
    · cases found
    · split at found <;> cases found
      exact Nat.succ_pos _
  unfold referenceLength at found
  repeat' split at found
  · exact ⟨List.cons_ne_nil _ _, closed found⟩
  · exact ⟨List.cons_ne_nil _ _, closed found⟩
  · cases found
  · exact ⟨List.cons_ne_nil _ _, closed found⟩
  · cases found

/-- What a token takes is not empty. -/
theorem length?_take {lexeme : Lexeme} (consuming : lexeme.consumes = true)
    (found : lexeme.length? text = some length) : text.take length ≠ [] := by
  have named : nameLength text = some length → text.take length ≠ [] := by
    intro isName
    obtain ⟨first, rest, taken, _⟩ := nameLength_take isName
    rw [taken]
    exact List.cons_ne_nil _ _
  have run : ∀ {test : Char → Bool}, runLength test text ≠ 0 →
      text.take (runLength test text) ≠ [] := by
    intro test positive
    cases text with
    | nil => exact absurd rfl positive
    | cons => exact take_ne_nil ⟨List.cons_ne_nil _ _, Nat.pos_iff_ne_zero.mpr positive⟩
  cases lexeme with
  | mark letters =>
      simp only [length?] at found
      split at found <;> cases found
      next both =>
        exact take_ne_nil_of_startsWith (of_decide_eq_true consuming) (Bool.and_eq_true_iff.mp both).1
  | exact letters =>
      simp only [length?] at found
      split at found <;> cases found
      next starts => exact take_ne_nil_of_startsWith (of_decide_eq_true consuming) starts
  | word letters =>
      simp only [length?] at found
      split at found <;> cases found
      next both =>
        exact take_ne_nil_of_startsWith (of_decide_eq_true consuming) (Bool.and_eq_true_iff.mp both).2
  | markAmong choices =>
      simp only [length?] at found
      split at found <;> cases found
      next among =>
        intro empty
        rw [empty] at among
        simp only [consumes, among, Bool.not_true, Bool.false_eq_true] at consuming
  | wordAmong choices =>
      obtain ⟨named', isName, same⟩ := Option.bind_eq_some_iff.mp found
      split at same <;> cases same
      exact named isName
  | name reserved =>
      obtain ⟨named', isName, same⟩ := Option.bind_eq_some_iff.mp found
      split at same <;> cases same
      exact named isName
  | privateName =>
      simp only [length?] at found
      unfold privateNameLength at found
      split at found
      · obtain ⟨digits, _, rfl⟩ := Option.map_eq_some_iff.mp found
        exact List.cons_ne_nil _ _
      · cases found
  | markupName =>
      obtain ⟨first, rest, taken, _⟩ := markupNameLength_take found
      rw [taken]
      exact List.cons_ne_nil _ _
  | number => exact take_ne_nil (numberLength_pos found)
  | escape => exact take_ne_nil (escapeLength_pos found)
  | reference => exact take_ne_nil (referenceLength_pos found)
  | fragment quote =>
      simp only [length?, fragmentLength] at found
      split at found <;> cases found
      next positive => exact run positive
  | markupText =>
      simp only [length?, markupTextLength] at found
      split at found <;> cases found
      next positive => exact run positive
  | regexFlags =>
      simp only [length?] at found
      split at found <;> cases found
      next positive => exact run positive
  | attributeText quote =>
      simp only [length?, attributeTextLength] at found
      split at found <;> cases found
      next positive =>
        cases text with
        | nil => exact absurd rfl positive
        | cons => exact take_ne_nil ⟨List.cons_ne_nil _ _, Nat.pos_iff_ne_zero.mpr positive⟩
  | templateText =>
      simp only [length?] at found
      split at found <;> cases found
      next isText =>
        cases text with
        | nil => cases isText
        | cons => exact List.cons_ne_nil _ _
  | regexBody =>
      simp only [length?] at found
      split at found <;> cases found
      next isBody =>
        cases text with
        | nil => cases isBody
        | cons => exact List.cons_ne_nil _ _
  | regexOpen =>
      simp only [length?] at found
      split at found <;> cases found
      exact List.cons_ne_nil _ _
  | hashBang =>
      simp only [length?] at found
      split at found <;> cases found
      rw [Nat.add_comm]
      exact List.cons_ne_nil _ _

end Lexeme

/-! ### What stands between tokens -/

variable {markup through sawLineEnd afterExpression : Bool} {trees gap : List Tree}

theorem blanksOf_length_le (text : Text) : (blanksOf text).2.length ≤ text.length := by
  unfold blanksOf
  split
  · exact Nat.le_refl _
  · rw [List.length_drop]
    exact Nat.sub_le _ _

theorem commentLength_pos {kind : Kind} (found : commentLength markup text = some (kind, length)) :
    text ≠ [] ∧ 0 < length := by
  unfold commentLength at found
  split at found
  · cases found
    exact ⟨List.cons_ne_nil _ _, by omega⟩
  · obtain ⟨tail, _, same⟩ := Option.map_eq_some_iff.mp found
    cases same
    exact ⟨List.cons_ne_nil _ _, Nat.succ_pos _⟩
  · split at found <;> cases found
    exact ⟨List.cons_ne_nil _ _, by omega⟩
  · split at found <;> cases found
    exact ⟨List.cons_ne_nil _ _, by omega⟩
  · cases found

theorem commentOf_shortens (found : commentOf markup text = some (trees, rest)) :
    rest.length < text.length := by
  have shorter := blanksOf_length_le text
  unfold commentOf at found
  generalize blanksOf text = blanks at found shorter
  obtain ⟨⟨kind, length⟩, comment, same⟩ := Option.map_eq_some_iff.mp found
  obtain ⟨some, positive⟩ := commentLength_pos comment
  cases same
  have filled := List.length_pos_iff.mpr some
  rw [List.length_drop]
  omega

theorem gapOf_length_le (markup : Bool) (fuel : Nat) (text : Text) :
    (gapOf markup fuel text).2.length ≤ text.length := by
  have kept := congrArg List.length (gapOf_sound markup fuel text).2
  rw [List.length_append] at kept
  omega

/-- A gap has fewer comments than characters. -/
theorem gapOf_stable (enough : text.length < fuel) :
    gapOf markup fuel text = gapOf markup (fuel + 1) text := by
  induction fuel generalizing text with
  | zero => exact absurd enough (Nat.not_lt_zero _)
  | succ fuel inductionHypothesis =>
      rw [gapOf, gapOf]
      cases comment : commentOf markup text with
      | none => rfl
      | some found =>
          have shorter := commentOf_shortens comment
          have behind : gapOf markup fuel found.2 = gapOf markup (fuel + 1) found.2 :=
            inductionHypothesis (by omega)
          simp only [behind]

theorem glanceBlock_length_le {saw : Bool}
    (found : glanceBlock sawLineEnd text = (saw, some rest)) : rest.length ≤ text.length := by
  induction text generalizing sawLineEnd with
  | nil => cases found
  | cons letter text inductionHypothesis =>
      unfold glanceBlock at found
      split at found
      next => cases found
      next same =>
        cases found
        rw [same, List.length_cons, List.length_cons]
        omega
      next same =>
        cases same
        split at found
        · cases found
        · exact Nat.le_succ_of_le (inductionHypothesis found)

/-- What a look across a gap arrives at. -/
def Glance.text? : Glance → Option Text
  | .blocked => none
  | .sameLine rest | .arrived rest => some rest

theorem glance_length_le (found : (glance through fuel sawLineEnd text).text? = some rest) :
    rest.length ≤ text.length := by
  induction fuel generalizing sawLineEnd text with
  | zero =>
      cases found
      exact Nat.le_refl _
  | succ fuel inductionHypothesis =>
      have blanks := (List.dropWhile_suffix (l := text) isPlainBlank).length_le
      rw [glance] at found
      split at found
      next line same =>
        have shorter := inductionHypothesis found
        have run := (List.dropWhile_suffix (l := line)
          fun letter => !isNul letter && !isLineEnd letter).length_le
        rw [same, List.length_cons, List.length_cons] at blanks
        omega
      next block same =>
        rw [same, List.length_cons, List.length_cons] at blanks
        split at found
        next =>
          cases found
          exact Nat.zero_le _
        next saw after closed =>
          have inside := glanceBlock_length_le closed
          split at found
          next =>
            have shorter := inductionHypothesis found
            omega
          next =>
            split at found <;> cases found <;> omega
      next => cases found
      next =>
        cases found
        exact blanks

/-- A look across a gap passes fewer comments than characters. -/
theorem glance_stable (enough : text.length < fuel) :
    glance through fuel sawLineEnd text = glance through (fuel + 1) sawLineEnd text := by
  induction fuel generalizing sawLineEnd text with
  | zero => exact absurd enough (Nat.not_lt_zero _)
  | succ fuel inductionHypothesis =>
      have blanks := (List.dropWhile_suffix (l := text) isPlainBlank).length_le
      rw [glance, glance]
      split
      next line same =>
        have run := (List.dropWhile_suffix (l := line)
          fun letter => !isNul letter && !isLineEnd letter).length_le
        rw [same, List.length_cons, List.length_cons] at blanks
        exact inductionHypothesis (by omega)
      next block same =>
        rw [same, List.length_cons, List.length_cons] at blanks
        split
        next => rfl
        next saw after closed =>
          have inside := glanceBlock_length_le closed
          rw [inductionHypothesis (by omega)]
      next => rfl
      next => rfl

theorem impliesAt_stable {again other : Text → Bool} (enough : text.length < fuel + 1)
    (same : ∀ rest, rest.length < text.length → again rest = other rest) :
    impliesAt fuel again text = impliesAt (fuel + 1) other text := by
  cases text with
  | nil => rfl
  | cons letter rest =>
      rw [List.length_cons] at enough
      rw [impliesAt, impliesAt, glance_stable (by omega), same rest (Nat.lt_succ_self _)]

theorem impliesSemicolon_stable (enough : text.length + 1 < fuel) :
    impliesSemicolon afterExpression fuel text = impliesSemicolon afterExpression (fuel + 1) text := by
  induction fuel generalizing text with
  | zero => exact absurd enough (Nat.not_lt_zero _)
  | succ fuel inductionHypothesis =>
      cases text with
      | nil => rfl
      | cons letter rest =>
          have again : ∀ after : Text, after.length ≤ (letter :: rest).length →
              impliesAt fuel (impliesSemicolon afterExpression fuel) after =
                impliesAt (fuel + 1) (impliesSemicolon afterExpression (fuel + 1)) after :=
            fun after shorter => impliesAt_stable (by omega)
              fun further less => inductionHypothesis (by omega)
          have glances : glance false fuel false (letter :: rest) =
              glance false (fuel + 1) false (letter :: rest) := glance_stable (by omega)
          rw [impliesSemicolon, impliesSemicolon, again _ (Nat.le_refl _), ← glances]
          cases glanced : glance false fuel false (letter :: rest) with
          | blocked => rfl
          | sameLine after =>
              simp only [again after (glance_length_le (congrArg Glance.text? glanced))]
          | arrived after =>
              simp only [again after (glance_length_le (congrArg Glance.text? glanced))]

namespace Rule

variable {Symbol : Type} {grammar : Symbol → Rule Symbol} {rank : Symbol → Nat}
  {state next : State}

theorem isUnbroken_stable (enough : text.length + 2 < fuel) :
    isUnbroken afterExpression markup fuel text =
      isUnbroken afterExpression markup (fuel + 1) text := by
  induction fuel generalizing text with
  | zero => exact absurd enough (Nat.not_lt_zero _)
  | succ fuel inductionHypothesis =>
      rw [isUnbroken, isUnbroken, ← impliesSemicolon_stable (by omega)]
      cases comment : commentOf markup text with
      | none => rfl
      | some found =>
          have shorter := commentOf_shortens comment
          have behind : isUnbroken afterExpression markup fuel found.2 =
              isUnbroken afterExpression markup (fuel + 1) found.2 := inductionHypothesis (by omega)
          simp only [behind]

theorem readSemicolon_stable (enough : state.rest.length + 2 < fuel) :
    readSemicolon gap fuel state = readSemicolon gap (fuel + 1) state := by
  induction fuel generalizing gap state with
  | zero => exact absurd enough (Nat.not_lt_zero _)
  | succ fuel inductionHypothesis =>
      rw [readSemicolon, readSemicolon, ← impliesSemicolon_stable (by omega)]
      cases comment : commentOf false state.rest with
      | none => rfl
      | some found =>
          have shorter := commentOf_shortens comment
          have behind : readSemicolon (gap ++ found.1) fuel { state with rest := found.2 } =
              readSemicolon (gap ++ found.1) (fuel + 1) { state with rest := found.2 } :=
            inductionHypothesis (by simp only; omega)
          simp only [behind]

/-! ### What rules take -/

/-- True if a rule that matches takes at least one character, provided that symbols do. -/
def consumes : Rule Symbol → Bool
  | .token _ lexeme | .glued _ lexeme => lexeme.consumes
  | .ref _ => true
  | .all rules => someConsumes rules
  | .any rules => eachConsumes rules
  | .node _ rule | .part _ rule | .only _ rule | .commit rule | .within _ rule => consumes rule
  | .chain base _ => consumes base
  | .gap | .semicolon | .unbroken _ | .many _ | .unless _ | .endExpression | .reopen => false
where
  someConsumes : List (Rule Symbol) → Bool
    | [] => false
    | rule :: rules => consumes rule || someConsumes rules
  eachConsumes : List (Rule Symbol) → Bool
    | [] => true
    | rule :: rules => consumes rule && eachConsumes rules

/-- How deep a rule is followed at most before a character is taken, where each symbol has its depth. -/
def lead (rank : Symbol → Nat) : Rule Symbol → Nat
  | .token _ _ | .glued _ _ | .gap | .semicolon | .unbroken _ | .endExpression | .reopen => 4
  | .ref symbol => rank symbol + 1
  | .all rules => leadOfAll rules + 1
  | .any rules => leadOfAny rules + 1
  | .many rule | .node _ rule | .part _ rule | .only _ rule | .unless rule | .commit rule
  | .within _ rule => lead rank rule + 1
  | .chain base _ => lead rank base + 1
where
  leadOfAll : List (Rule Symbol) → Nat
    | [] => 0
    | rule :: rules => max (lead rank rule) (if rule.consumes then 0 else leadOfAll rules)
  leadOfAny : List (Rule Symbol) → Nat
    | [] => 0
    | rule :: rules => max (lead rank rule) (leadOfAny rules)

/-- The depth that one more character allows. -/
def depthPerCharacter : Nat := 256

/-- True if all tokens take something that is no gap, whatever is repeated takes something too, and no
part of a rule is followed deeper than a character allows. -/
def isShallow (rank : Symbol → Nat) : Rule Symbol → Bool
  | .token kind lexeme | .glued kind lexeme => !kind.isTrivia && lexeme.consumes
  | .gap | .semicolon | .unbroken _ | .ref _ | .endExpression | .reopen => true
  | .all rules => allShallow rules
  | .any rules => allShallow rules
  | .many rule => isShallow rank rule && rule.consumes
  | .node _ rule | .part _ rule | .only _ rule | .unless rule | .commit rule | .within _ rule =>
    isShallow rank rule
  | .chain base links => isShallow rank base && base.consumes && linksShallow links
where
  allShallow : List (Rule Symbol) → Bool
    | [] => true
    | rule :: rules =>
      isShallow rank rule && lead rank rule ≤ depthPerCharacter && allShallow rules
  linksShallow : List (Link (Rule Symbol)) → Bool
    | [] => true
    | ⟨_, _, _, rest⟩ :: links =>
      isShallow rank rest && rest.consumes && lead rank rest ≤ depthPerCharacter &&
        linksShallow links

/-- A grammar whose symbols take characters and come back to themselves only behind one. -/
structure Grounded (grammar : Symbol → Rule Symbol) (rank : Symbol → Nat) : Prop where
  isShallow : ∀ symbol, (grammar symbol).isShallow rank = true
  consumes : ∀ symbol, (grammar symbol).consumes = true
  lead_le : ∀ symbol, (grammar symbol).lead rank ≤ rank symbol

theorem allShallow_iff (rules : List (Rule Symbol)) :
    isShallow.allShallow rank rules = true ↔
      ∀ rule ∈ rules, rule.isShallow rank = true ∧ rule.lead rank ≤ depthPerCharacter := by
  induction rules with
  | nil => simp [isShallow.allShallow]
  | cons rule rules inductionHypothesis =>
      simp only [isShallow.allShallow, Bool.and_eq_true, decide_eq_true_eq, inductionHypothesis,
        List.forall_mem_cons]

theorem linksShallow_iff (links : List (Link (Rule Symbol))) :
    isShallow.linksShallow rank links = true ↔
      ∀ link ∈ links, (link.rest.isShallow rank = true ∧ link.rest.consumes = true) ∧
        link.rest.lead rank ≤ depthPerCharacter := by
  induction links with
  | nil => simp [isShallow.linksShallow]
  | cons link links inductionHypothesis =>
      simp only [isShallow.linksShallow, Bool.and_eq_true, decide_eq_true_eq, inductionHypothesis,
        List.forall_mem_cons]

/-- How much of the text is left behind what a rule has read. -/
def Shortens (strictly : Bool) (state next : State) : Prop :=
  next.rest.length ≤ state.rest.length ∧
    (strictly = true → next.rest.length < state.rest.length)

namespace Shortens

variable {middle : State} {strictly first second : Bool}

theorem refl (same : next.rest = state.rest) : Shortens false state next :=
  ⟨Nat.le_of_eq (congrArg List.length same), fun contradiction => by cases contradiction⟩

theorem trans (before : Shortens first state middle) (behind : Shortens second middle next) :
    Shortens (first || second) state next := by
  refine ⟨Nat.le_trans behind.1 before.1, fun either => ?_⟩
  rcases Bool.or_eq_true_iff.mp either with isFirst | isSecond
  · exact Nat.lt_of_le_of_lt behind.1 (before.2 isFirst)
  · exact Nat.lt_of_lt_of_le (behind.2 isSecond) before.1

theorem weaken (shortens : Shortens strictly state next) : Shortens false state next :=
  ⟨shortens.1, fun contradiction => by cases contradiction⟩

end Shortens

theorem drop_length_lt {lexeme : Lexeme} {length : Nat} (consuming : lexeme.consumes = true)
    (taken : lexeme.length? text = some length) : (text.drop length).length < text.length := by
  have filled := Lexeme.length?_take consuming taken
  rw [Ne, List.take_eq_nil_iff, not_or] at filled
  have some := List.length_pos_iff.mpr filled.2
  rw [List.length_drop]
  omega

theorem consumes_of_mem {rules : List (Rule Symbol)} (every : consumes.eachConsumes rules = true)
    {rule : Rule Symbol} (member : rule ∈ rules) : rule.consumes = true := by
  induction rules with
  | nil => cases member
  | cons first rules inductionHypothesis =>
      rw [consumes.eachConsumes, Bool.and_eq_true] at every
      rcases List.mem_cons.mp member with rfl | inRest
      · exact every.1
      · exact inductionHypothesis every.2 inRest

/-- What a rule reads leaves less of the text, if the rule takes something. -/
theorem Reads.shortens (grounded : Grounded grammar rank) {rule : Rule Symbol}
    (reads : Reads grammar rule state trees next) (shallow : rule.isShallow rank = true) :
    Shortens rule.consumes state next := by
  induction reads with
  | token _ _ ofGap ofToken => exact (ofGap rfl).trans (ofToken shallow)
  | glued taken =>
      obtain ⟨_, consuming⟩ := Bool.and_eq_true_iff.mp shallow
      have less := drop_length_lt consuming taken
      exact ⟨Nat.le_of_lt less, fun _ => less⟩
  | gap state fuel =>
      exact ⟨gapOf_length_le state.markup fuel state.rest, fun contradiction => by cases contradiction⟩
  | implied _ ofGap => exact ⟨(ofGap rfl).1, fun contradiction => by cases contradiction⟩
  | written _ ofToken => exact ⟨(ofToken rfl).1, fun contradiction => by cases contradiction⟩
  | unbroken => exact .refl rfl
  | @ref symbol _ _ _ _ ofSymbol =>
      have inner := ofSymbol (grounded.isShallow symbol)
      rwa [grounded.consumes symbol] at inner
  | allNil => exact .refl rfl
  | allCons _ _ ofFirst ofOthers =>
      simp only [isShallow, isShallow.allShallow, Bool.and_eq_true] at shallow
      exact (ofFirst shallow.1.1).trans (ofOthers shallow.2)
  | any member _ ofRule =>
      have inner := ofRule ((allShallow_iff _).mp shallow _ member).1
      exact ⟨inner.1, fun every => inner.2 (consumes_of_mem every member)⟩
  | manyNil => exact .refl rfl
  | manyCons _ _ ofFirst ofOthers =>
      obtain ⟨first, _⟩ := Bool.and_eq_true_iff.mp shallow
      exact (ofFirst first).weaken.trans (ofOthers shallow)
  | node _ _ ofRule => exact ofRule shallow
  | part _ _ ofRule => exact ofRule shallow
  | only _ _ ofRule => exact ofRule shallow
  | chain _ _ ofBase =>
      simp only [isShallow, Bool.and_eq_true] at shallow
      exact ofBase shallow.1.1
  | link member _ _ ofBefore ofRest =>
      have links := (linksShallow_iff _).mp (Bool.and_eq_true_iff.mp shallow).2
      have both := (ofBefore shallow).trans (ofRest (links _ member).1.1).weaken
      rwa [Bool.or_false] at both
  | «unless» => exact .refl rfl
  | commit _ ofRule => exact ofRule shallow
  | within _ ofRule => exact ofRule shallow
  | endExpression => exact .refl rfl
  | reopen => exact .refl rfl

theorem read_shortens (grounded : Grounded grammar rank) {rule : Rule Symbol}
    (shallow : rule.isShallow rank = true)
    (found : read grammar fuel rule state = .read trees next) : Shortens rule.consumes state next :=
  (reads_of_read found).shortens grounded shallow

/-! ### More depth changes nothing -/

theorem leadOfAll_le {rules : List (Rule Symbol)}
    (shallow : isShallow.allShallow rank rules = true) :
    lead.leadOfAll rank rules ≤ depthPerCharacter := by
  induction rules with
  | nil => exact Nat.zero_le _
  | cons rule rules inductionHypothesis =>
      simp only [isShallow.allShallow, Bool.and_eq_true, decide_eq_true_eq] at shallow
      have others := inductionHypothesis shallow.2
      rw [lead.leadOfAll]
      split <;> omega

/-- A depth that is enough where so much of the text is left still is behind a character. -/
theorem enough_behind {depth lead : Nat} (less : next.rest.length < state.rest.length)
    (small : lead ≤ depthPerCharacter) (enough : depthPerCharacter * state.rest.length ≤ depth) :
    depthPerCharacter * next.rest.length + lead ≤ depth := by
  have product := Nat.mul_le_mul_left depthPerCharacter (Nat.succ_le_of_lt less)
  rw [Nat.mul_succ] at product
  omega

/-- True if a depth is as good as one more for all rules, as long as so much of the text is left that the
depth allows. -/
def IsEnough (grammar : Symbol → Rule Symbol) (rank : Symbol → Nat) (depth : Nat) : Prop :=
  ∀ (rule : Rule Symbol) (state : State), rule.isShallow rank = true →
    depthPerCharacter * state.rest.length + rule.lead rank ≤ depth →
      read grammar depth rule state = read grammar (depth + 1) rule state

namespace IsEnough

variable {depth : Nat} {rule : Rule Symbol} {rules : List (Rule Symbol)}
  {links : List (Link (Rule Symbol))} {acc : Tree}

theorem readAll (isEnough : IsEnough grammar rank depth) (grounded : Grounded grammar rank)
    (shallow : isShallow.allShallow rank rules = true)
    (enough : depthPerCharacter * state.rest.length + lead.leadOfAll rank rules ≤ depth) :
    Rule.readAll (read grammar depth) gap rules state =
      Rule.readAll (read grammar (depth + 1)) gap rules state := by
  induction rules generalizing gap state with
  | nil => rfl
  | cons rule rules inductionHypothesis =>
      simp only [isShallow.allShallow, Bool.and_eq_true] at shallow
      rw [lead.leadOfAll] at enough
      rw [Rule.readAll, Rule.readAll, isEnough rule state shallow.1.1 (by omega)]
      cases found : read grammar (depth + 1) rule state with
      | missed => rfl
      | refused => rfl
      | read trees next =>
          refine inductionHypothesis shallow.2 ?_
          have shortens := read_shortens grounded shallow.1.1 found
          cases consuming : rule.consumes with
          | true => exact enough_behind (shortens.2 consuming) (leadOfAll_le shallow.2) (by omega)
          | false =>
              have product := Nat.mul_le_mul_left depthPerCharacter shortens.1
              rw [consuming, if_neg Bool.false_ne_true] at enough
              omega

theorem readAny (isEnough : IsEnough grammar rank depth)
    (shallow : isShallow.allShallow rank rules = true)
    (enough : depthPerCharacter * state.rest.length + lead.leadOfAny rank rules ≤ depth) :
    Rule.readAny (read grammar depth) rules state =
      Rule.readAny (read grammar (depth + 1)) rules state := by
  induction rules with
  | nil => rfl
  | cons rule rules inductionHypothesis =>
      simp only [isShallow.allShallow, Bool.and_eq_true] at shallow
      rw [lead.leadOfAny] at enough
      rw [Rule.readAny, Rule.readAny, isEnough rule state shallow.1.1 (by omega),
        inductionHypothesis shallow.2 (by omega)]

theorem readMany (isEnough : IsEnough grammar rank depth) (grounded : Grounded grammar rank)
    (shallow : rule.isShallow rank = true) (consuming : rule.consumes = true)
    (enough : depthPerCharacter * state.rest.length + rule.lead rank ≤ depth)
    (less : state.rest.length < fuel) :
    Rule.readMany (read grammar depth rule) fuel state =
      Rule.readMany (read grammar (depth + 1) rule) (fuel + 1) state := by
  induction fuel generalizing state with
  | zero => exact absurd less (Nat.not_lt_zero _)
  | succ fuel inductionHypothesis =>
      rw [Rule.readMany, Rule.readMany, isEnough rule state shallow enough]
      cases found : read grammar (depth + 1) rule state with
      | missed => rfl
      | refused => rfl
      | read trees next =>
          cases trees with
          | nil => rfl
          | cons tree trees =>
              have shorter := (read_shortens grounded shallow found).2 consuming
              have product := Nat.mul_le_mul_left depthPerCharacter (Nat.le_of_lt shorter)
              have behind : Rule.readMany (read grammar depth rule) fuel next =
                  Rule.readMany (read grammar (depth + 1) rule) (fuel + 1) next :=
                inductionHypothesis (by omega) (by omega)
              simp only [behind]

theorem readLink (isEnough : IsEnough grammar rank depth)
    (shallow : isShallow.linksShallow rank links = true)
    (enough : depthPerCharacter * (state.rest.length + 1) ≤ depth) :
    Rule.readLink (read grammar depth) acc state links =
      Rule.readLink (read grammar (depth + 1)) acc state links := by
  induction links with
  | nil => rfl
  | cons link links inductionHypothesis =>
      simp only [isShallow.linksShallow, Bool.and_eq_true, decide_eq_true_eq] at shallow
      rw [Nat.mul_succ] at enough
      rw [Rule.readLink, Rule.readLink, isEnough link.rest state shallow.1.1.1 (by omega),
        inductionHypothesis shallow.2]

theorem readLinks (isEnough : IsEnough grammar rank depth) (grounded : Grounded grammar rank)
    (shallow : isShallow.linksShallow rank links = true)
    (enough : depthPerCharacter * (state.rest.length + 1) ≤ depth)
    (less : state.rest.length < fuel) :
    Rule.readLinks (read grammar depth) links gap fuel acc state =
      Rule.readLinks (read grammar (depth + 1)) links gap (fuel + 1) acc state := by
  induction fuel generalizing acc state with
  | zero => exact absurd less (Nat.not_lt_zero _)
  | succ fuel inductionHypothesis =>
      rw [Rule.readLinks, Rule.readLinks, isEnough.readLink shallow enough]
      cases found : Rule.readLink (read grammar (depth + 1)) acc state links with
      | missed => rfl
      | refused => rfl
      | read trees next =>
          obtain ⟨link, member, more, same, rfl⟩ := readLink_eq found
          have each := (linksShallow_iff links).mp shallow link member
          have shorter := (read_shortens grounded each.1.1 same).2 each.1.2
          have product : depthPerCharacter * (next.rest.length + 1) ≤
              depthPerCharacter * (state.rest.length + 1) := Nat.mul_le_mul_left _ (by omega)
          exact inductionHypothesis (by omega) (by omega)

end IsEnough

theorem lead_pos (rule : Rule Symbol) : 0 < rule.lead rank := by
  cases rule <;> simp [lead]

/-- Behind so many steps for each character that is left, one more step deeper changes nothing. -/
theorem isEnough (grounded : Grounded grammar rank) (depth : Nat) : IsEnough grammar rank depth := by
  induction depth with
  | zero =>
      intro rule state _ enough
      have : 0 < rule.lead rank := lead_pos rule
      omega
  | succ depth inductionHypothesis =>
      intro rule state shallow enough
      have wide : state.rest.length ≤ depthPerCharacter * state.rest.length :=
        Nat.le_mul_of_pos_left _ (by decide)
      cases rule with
      | token kind lexeme =>
          rw [lead] at enough
          rw [read, read, ← gapOf_stable (by omega)]
      | glued kind lexeme => rfl
      | gap =>
          rw [lead] at enough
          rw [read, read, ← gapOf_stable (by omega)]
      | semicolon =>
          rw [lead] at enough
          exact readSemicolon_stable (by omega)
      | unbroken afterExpression =>
          rw [lead] at enough
          rw [read, read, ← isUnbroken_stable (by omega)]
      | ref symbol =>
          have below := grounded.lead_le symbol
          rw [lead] at enough
          exact inductionHypothesis (grammar symbol) state (grounded.isShallow symbol) (by omega)
      | all rules =>
          rw [lead] at enough
          exact inductionHypothesis.readAll grounded shallow (by omega)
      | any rules =>
          rw [lead] at enough
          exact inductionHypothesis.readAny shallow (by omega)
      | many rule =>
          simp only [isShallow, Bool.and_eq_true] at shallow
          rw [lead] at enough
          have : 0 < rule.lead rank := lead_pos rule
          exact inductionHypothesis.readMany grounded shallow.1 shallow.2 (by omega) (by omega)
      | node kind rule =>
          rw [lead] at enough
          rw [read, read, inductionHypothesis rule state shallow (by omega)]
      | part role rule =>
          rw [lead] at enough
          rw [read, read, inductionHypothesis rule state shallow (by omega)]
      | only kinds rule =>
          rw [lead] at enough
          rw [read, read, inductionHypothesis rule state shallow (by omega)]
      | chain base links =>
          simp only [isShallow, Bool.and_eq_true] at shallow
          rw [lead] at enough
          rw [read, read, inductionHypothesis base state shallow.1.1 (by omega)]
          cases found : read grammar (depth + 1) base state with
          | missed => rfl
          | refused => rfl
          | read trees next =>
              have shorter := (read_shortens grounded shallow.1.1 found).2 shallow.1.2
              have product : depthPerCharacter * (next.rest.length + 1) ≤
                  depthPerCharacter * state.rest.length := Nat.mul_le_mul_left _ shorter
              simp only
              split
              next acc _ => exact inductionHypothesis.readLinks grounded shallow.2 (by omega) (by omega)
              next => rfl
      | «unless» rule =>
          rw [lead] at enough
          rw [read, read, inductionHypothesis rule state shallow (by omega)]
      | commit rule =>
          rw [lead] at enough
          rw [read, read, inductionHypothesis rule state shallow (by omega)]
      | within semicolons rule =>
          rw [lead] at enough
          rw [read, read, inductionHypothesis rule { state with semicolons := semicolons } shallow
            (by simp only; omega)]
      | endExpression => rfl
      | reopen => rfl

/-- A rule is read the same at all depths that are enough. -/
theorem read_stable (grounded : Grounded grammar rank) {rule : Rule Symbol} {depth more : Nat}
    (shallow : rule.isShallow rank = true)
    (enough : depthPerCharacter * state.rest.length + rule.lead rank ≤ depth) (deeper : depth ≤ more) :
    read grammar depth rule state = read grammar more rule state := by
  induction deeper with
  | refl => rfl
  | step deeper inductionHypothesis =>
      exact inductionHypothesis.trans
        (isEnough grounded _ rule state shallow (Nat.le_trans enough deeper))

end Rule

/-- How deep the rule of a symbol is followed at most before a character is taken. -/
def rank : Symbol → Nat
  | .caseStatement => 40
  | .statement => 38
  | .expressionStatement => 34
  | .sequence => 31
  | .expression => 29
  | .binary _ => 26
  | .unary => 23
  | .operand => 21
  | .postfixed => 18
  | .declaration => 16
  | .primary => 15
  | .classExpression => 13
  | .exportDeclaration | .arrowFunction | .patternWithDefault => 12
  | .functionBlock | .moduleExportName | .propertyName | .functionExpression | .classTail
  | .element => 10
  | _ => 8

/-- The rules of scripts come back to themselves only behind a character. -/
theorem grammar_grounded : Rule.Grounded grammar rank where
  isShallow symbol := by
    cases symbol with
    | binary level =>
        exact forall_binary (fun phrase => phrase.isShallow rank = true) (by decide +kernel) level
    | _ => decide +kernel
  consumes symbol := by
    cases symbol <;> rfl
  lead_le symbol := by
    cases symbol with
    | binary level => exact Nat.le_refl 26
    | _ => decide +kernel

/-- A rule of the grammar is read the same at all depths that are enough. -/
theorem read_grammar_stable {rule : Phrase} {state : State} {depth more : Nat}
    (shallow : rule.isShallow rank = true) (lead_le : rule.lead rank ≤ Rule.depthPerCharacter)
    (enough : depthBound state.rest.length ≤ depth) (deeper : depth ≤ more) :
    Rule.read grammar depth rule state = Rule.read grammar more rule state := by
  have bound : depthBound state.rest.length =
      Rule.depthPerCharacter * state.rest.length + Rule.depthPerCharacter := Nat.mul_succ _ _
  exact Rule.read_stable grammar_grounded shallow (by omega) deeper

/-- The script that has been read, if nothing is left of the text. -/
def Outcome.script? : Outcome → Option Tree
  | .read trees ⟨[], _, _, _⟩ => some (.node none .program trees)
  | _ => none

/-- A script is read the same at all depths above the bound. -/
theorem parse?_of_depth {source : Text} {depth : Nat} (deep : depthBound source.length ≤ depth) :
    parse? source = (Rule.read grammar depth script ⟨source, true, true, false⟩).script? := by
  have stable : Rule.read grammar (depthBound source.length) script ⟨source, true, true, false⟩ =
      Rule.read grammar depth script ⟨source, true, true, false⟩ :=
    read_grammar_stable (by decide +kernel) (by decide +kernel) (Nat.le_refl _) deep
  rw [parse?, stable]
  rfl

end ImportMeter.Script
