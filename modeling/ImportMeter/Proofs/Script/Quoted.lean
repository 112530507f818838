/-
This file proves that string literals outside of markup attributes are read with the values that they
denote, unless an escape of theirs is misread.
-/
import ImportMeter.Proofs.Script.Literal
import ImportMeter.Proofs.Script.Reading
import ImportMeter.Proofs.Script.Walk

namespace ImportMeter.Script

open ImportMeter.Script.Tree

/-! ### The trees of literals -/

/-- True for the children of a string literal outside of attributes: two quotes and, between them, the
parts of the literal. -/
def IsQuoted (children : List Tree) : Prop :=
  ∃ quote parts gap after, (quote = '\x22' ∨ quote = '\x27') ∧ IsGap gap ∧
    IsParts quote (textOfAll parts ++ textOfAll gap ++ quote :: after) parts ∧
    children = .leaf none .mark [quote] :: (parts ++ gap ++ [.leaf none .mark [quote]])

/-- True for a tree whose string literals are made of quotes and parts, those of attributes apart. -/
inductive HoldsLiterals : Tree → Prop where
  | leaf (role : Option Role) (kind : Kind) (letters : Text) : HoldsLiterals (.leaf role kind letters)
  | node (role : Option Role) {kind : Kind} {children : List Tree}
      (quoted : kind = .string → IsQuoted children)
      (inside : ∀ child ∈ children, ¬ (kind = .jsxAttribute ∧ child.kind = .string) →
        HoldsLiterals child) : HoldsLiterals (.node role kind children)

theorem HoldsLiterals.withRole {tree : Tree} (holds : HoldsLiterals tree) (role : Option Role) :
    HoldsLiterals (tree.withRole role) := by
  cases holds with
  | leaf _ kind letters => exact .leaf role kind letters
  | node _ quoted inside => exact .node role quoted inside

theorem IsGap.holdsLiterals {trees : List Tree} (isGap : IsGap trees) :
    ∀ tree ∈ trees, HoldsLiterals tree := by
  intro tree member
  obtain ⟨kind, letters, rfl, _⟩ := isGap tree member
  exact .leaf none kind letters

theorem IsGap.flatMap_partValue {trees : List Tree} (isGap : IsGap trees) :
    trees.flatMap partValue = [] := by
  rw [List.flatMap_eq_nil_iff]
  intro tree member
  obtain ⟨kind, letters, rfl, trivia, -, -⟩ := isGap tree member
  cases kind <;> first
    | rfl
    | cases trivia

/-- The value that is read from a literal is the one that it denotes. -/
theorem IsQuoted.flatMap_partValue {children : List Tree} {value : Text} (isQuoted : IsQuoted children)
    (hasValue : HasValue (textOfAll children) value)
    (noneMisread : ∀ part ∈ children, part.kind = .escapeSequence → ¬ IsMisread part.text) :
    children.flatMap partValue = value := by
  obtain ⟨quote, parts, gap, after, isQuote, isGap, isParts, rfl⟩ := isQuoted
  obtain ⟨other, behind, _, spelled, denotes⟩ := hasValue
  have whole : textOfAll (.leaf none .mark [quote] :: (parts ++ gap ++ [.leaf none .mark [quote]])) =
      quote :: (textOfAll parts ++ textOfAll gap ++ [quote]) := by simp
  rw [whole] at spelled
  obtain ⟨rfl, rfl⟩ := List.cons.inj spelled
  have inSource := denotes.append after
  rw [List.append_assoc, List.singleton_append] at inSource
  have units := isParts.toUnits_eq isQuote inSource fun part member =>
    noneMisread part (List.mem_cons_of_mem _ (List.mem_append_left _ (List.mem_append_left _ member)))
  rw [Text.toUnits_inj units, List.flatMap_cons, List.flatMap_append, List.flatMap_append,
    isGap.flatMap_partValue]
  simp [partValue]

/-! ### How the grammar reads them -/

namespace Rule

variable {Symbol : Type} {grammar : Symbol → Rule Symbol} {quote : Char} {fuel : Nat}
  {state next : State} {trees : List Tree} {kind : Kind}

/-- A part of a literal: plain text or an escape. -/
def literalPart (quote : Char) : Rule Symbol :=
  .any [.glued .stringFragment (.fragment quote), .glued .escapeSequence .escape]

/-- True if a rule reads what a string literal is made of outside of attributes. -/
def isQuoted : Rule Symbol → Bool
  | .all [.token .mark (.exact [opening]), .many (.any [.glued .stringFragment (.fragment quote),
      .glued .escapeSequence .escape]), .token .mark (.exact [closing])] =>
    (quote = '\x22' || quote = '\x27') && opening = quote && closing = quote
  | _ => false

/-- True if every string literal that a rule reads is made of quotes and parts, those of attributes
apart. -/
def quotes (inAttribute : Bool) : Rule Symbol → Bool
  | .all rules => allQuote inAttribute rules
  | .any rules => allQuote inAttribute rules
  | .many rule | .part _ rule | .only _ rule | .commit rule | .within _ rule =>
    quotes inAttribute rule
  | .node kind rule =>
    quotes (kind = .jsxAttribute) rule && (kind ≠ .string || inAttribute || rule.isQuoted)
  | .chain base links => quotes false base && linksQuote links
  | _ => true
where
  allQuote (inAttribute : Bool) : List (Rule Symbol) → Bool
    | [] => true
    | rule :: rules => quotes inAttribute rule && allQuote inAttribute rules
  linksQuote : List (Link (Rule Symbol)) → Bool
    | [] => true
    | ⟨_, _, kind, rest⟩ :: links =>
      quotes false rest && kind ≠ .string && kind ≠ .jsxAttribute && linksQuote links

theorem linksQuote_iff (links : List (Link (Rule Symbol))) :
    quotes.linksQuote links = true ↔ ∀ link ∈ links,
      (link.rest.quotes false = true ∧ link.kind ≠ .string) ∧ link.kind ≠ .jsxAttribute := by
  induction links with
  | nil => simp [quotes.linksQuote]
  | cons link links inductionHypothesis =>
      simp only [quotes.linksQuote, Bool.and_eq_true, decide_eq_true_eq, inductionHypothesis,
        List.forall_mem_cons]

theorem allQuote_iff (inAttribute : Bool) (rules : List (Rule Symbol)) :
    quotes.allQuote inAttribute rules = true ↔ ∀ rule ∈ rules, rule.quotes inAttribute = true := by
  induction rules with
  | nil => simp [quotes.allQuote]
  | cons rule rules inductionHypothesis =>
      simp only [quotes.allQuote, Bool.and_eq_true, inductionHypothesis, List.forall_mem_cons]

/-- What a part of a literal is read as. -/
theorem read_literalPart (state : State) :
    read grammar (fuel + 2) (literalPart quote) state =
      match fragmentLength quote state.rest, escapeLength state.rest with
      | some length, _ =>
        .read [.leaf none .stringFragment (state.rest.take length)]
          ⟨state.rest.drop length, false, state.semicolons, false⟩
      | none, some length =>
        .read [.leaf none .escapeSequence (state.rest.take length)]
          ⟨state.rest.drop length, false, state.semicolons, false⟩
      | none, none => .missed := by
  simp only [literalPart, read, readAny, readToken, Lexeme.length?]
  cases fragmentLength quote state.rest <;> cases escapeLength state.rest <;> rfl

/-- The parts end where neither plain text nor an escape stands. -/
theorem none_of_literalPart (stops : read grammar fuel (literalPart quote) state = .missed ∨
    ∃ last, read grammar fuel (literalPart quote) state = .read [] last) :
    fragmentLength quote state.rest = none ∧ escapeLength state.rest = none := by
  match fuel with
  | 0 => rcases stops with missed | ⟨_, empty⟩ <;> contradiction
  | 1 => rcases stops with missed | ⟨_, empty⟩ <;> contradiction
  | fuel + 2 =>
      rw [read_literalPart] at stops
      cases fragment : fragmentLength quote state.rest with
      | some => simp [fragment] at stops
      | none =>
          cases escape : escapeLength state.rest with
          | some => simp [fragment, escape] at stops
          | none => exact ⟨rfl, rfl⟩

theorem Reads.literalPart {middle : State} {part parts : List Tree}
    (reads : Reads grammar (Rule.literalPart quote) state part middle)
    (behind : IsParts quote middle.rest parts) :
    IsParts quote state.rest (part ++ parts) ∧ textOfAll part ++ middle.rest = state.rest := by
  unfold Rule.literalPart at reads
  cases reads with
  | any member reads =>
      simp only [List.mem_cons, List.not_mem_nil, or_false] at member
      rcases member with rfl | rfl
      · cases reads with
        | glued taken => exact ⟨.fragment taken behind, by simp⟩
      · cases reads with
        | glued taken => exact ⟨.escape taken behind, by simp⟩

/-- The parts of a literal are read up to where none is. -/
theorem Reads.isParts (reads : Reads grammar (.many (Rule.literalPart quote)) state trees next) :
    IsParts quote state.rest trees ∧ textOfAll trees ++ next.rest = state.rest := by
  generalize isMany : Rule.many (Rule.literalPart quote) = rule at reads
  induction reads with
  | manyNil stops =>
      cases isMany
      obtain ⟨noFragment, noEscape⟩ := none_of_literalPart stops
      exact ⟨.nil noFragment noEscape, rfl⟩
  | manyCons reads _ _ ofOthers =>
      cases isMany
      obtain ⟨isParts, keptOthers⟩ := ofOthers rfl
      obtain ⟨more, kept⟩ := reads.literalPart isParts
      exact ⟨more, by rw [textOfAll_append, List.append_assoc, keptOthers, kept]⟩
  | _ => cases isMany

/-- What is read as a literal is made of quotes and parts. -/
theorem Reads.isQuoted {rule : Rule Symbol} (reads : Reads grammar rule state trees next)
    (quoted : rule.isQuoted = true) : IsQuoted (trees.dropWhile Tree.isTrivia) := by
  unfold Rule.isQuoted at quoted
  split at quoted
  next opening inner quote =>
    simp only [Bool.and_eq_true, Bool.or_eq_true, decide_eq_true_eq] at quoted
    obtain ⟨⟨isQuote, rfl⟩, rfl⟩ := quoted
    obtain ⟨_, _, _, opens, others, rfl⟩ := reads.cons_eq
    obtain ⟨parts, _, _, inside, behind, rfl⟩ := others.cons_eq
    obtain ⟨_, _, _, closes, done, rfl⟩ := behind.cons_eq
    obtain ⟨rfl, rfl⟩ := done.nil_eq
    obtain ⟨front, taken, frontGap, takes, rfl, _⟩ := opens.token_eq
    obtain rfl := takes_exact takes
    obtain ⟨gap, taken, isGap, takes, rfl, spelled⟩ := closes.token_eq
    obtain rfl := takes_exact takes
    obtain ⟨isParts, kept⟩ := inside.isParts
    rw [← kept, ← spelled, List.append_assoc (textOfAll gap), List.singleton_append,
      ← List.append_assoc] at isParts
    refine ⟨_, parts, gap, next.rest, isQuote, isGap, isParts, ?_⟩
    rw [List.append_assoc, List.singleton_append, dropWhile_isTrivia frontGap rfl]
    simp
  next => cases quoted

/-- What is read as a node holds what its children hold, and is no other literal outside of attributes. -/
theorem node_holdsLiterals {inAttribute : Bool} {rule : Rule Symbol}
    (quoted : kind ≠ .string ∨ inAttribute = true ∨ rule.isQuoted = true)
    (inside : Reads grammar rule state trees next)
    (children : ∀ child ∈ trees, ¬ (kind = .jsxAttribute ∧ child.kind = .string) →
      HoldsLiterals child) :
    ∀ tree ∈ trees.takeWhile Tree.isTrivia ++ [.node none kind (trees.dropWhile Tree.isTrivia)],
      ¬ (inAttribute = true ∧ tree.kind = .string) → HoldsLiterals tree := by
  refine List.forall_mem_append.mpr ⟨fun tree member _ => ?_,
    List.forall_mem_singleton.mpr fun outside => .node none (fun isString => ?_) fun child member =>
      children child (List.IsSuffix.mem member (List.dropWhile_suffix _))⟩
  · have trivia := List.all_eq_true.mp List.all_takeWhile tree member
    refine children tree (List.IsPrefix.mem member (List.takeWhile_prefix _)) fun both => ?_
    rw [Tree.isTrivia, both.2] at trivia
    cases trivia
  · refine inside.isQuoted ((quoted.resolve_left ?_).resolve_left ?_)
    · exact not_not_intro isString
    · exact fun inMarkup => outside ⟨inMarkup, isString⟩

/-- The last tree that is read may stand in any role. -/
theorem markLast_holdsLiterals {inAttribute : Bool} (role : Role)
    (holds : ∀ tree ∈ trees, ¬ (inAttribute = true ∧ tree.kind = .string) → HoldsLiterals tree) :
    ∀ tree ∈ markLast role trees, ¬ (inAttribute = true ∧ tree.kind = .string) →
      HoldsLiterals tree := by
  rcases List.eq_nil_or_concat trees with rfl | ⟨before, last, rfl⟩
  · exact holds
  · rw [List.concat_eq_append] at holds ⊢
    rw [markLast_append]
    simp only [List.forall_mem_append, List.forall_mem_singleton, kind_withRole] at holds ⊢
    exact ⟨holds.1, fun outside => (holds.2 outside).withRole role⟩

/-- Whatever a rule reads holds no other literals, if the rules of the grammar pass the check. -/
theorem Reads.holdsLiterals (checked : ∀ symbol, (grammar symbol).quotes false = true)
    {inAttribute : Bool} {rule : Rule Symbol} (reads : Reads grammar rule state trees next)
    (quotes : rule.quotes inAttribute = true) :
    ∀ tree ∈ trees, ¬ (inAttribute = true ∧ tree.kind = .string) → HoldsLiterals tree := by
  have nowhere : ∀ tree : Tree, ¬ (false = true ∧ tree.kind = .string) :=
    fun tree both => Bool.false_ne_true both.1
  induction reads generalizing inAttribute with
  | token _ _ ofGap ofToken => exact List.forall_mem_append.mpr ⟨ofGap rfl, ofToken rfl⟩
  | glued => exact List.forall_mem_singleton.mpr fun _ => .leaf none _ _
  | gap state fuel =>
      have isGap := (gapOf_sound state.markup fuel state.rest).1
      exact fun tree member _ => isGap.holdsLiterals tree member
  | implied _ ofGap => exact ofGap rfl
  | written _ ofToken => exact ofToken rfl
  | @ref symbol _ _ _ _ ofSymbol =>
      exact fun tree member _ => ofSymbol (checked symbol) tree member (nowhere tree)
  | allCons _ _ ofFirst ofOthers =>
      obtain ⟨first, others⟩ := Bool.and_eq_true_iff.mp quotes
      exact List.forall_mem_append.mpr ⟨ofFirst first, ofOthers others⟩
  | any member _ ofRule => exact ofRule ((allQuote_iff inAttribute _).mp quotes _ member)
  | manyCons _ _ ofFirst ofOthers =>
      exact List.forall_mem_append.mpr ⟨ofFirst quotes, ofOthers quotes⟩
  | node kind reads ofRule =>
      simp only [Rule.quotes, Bool.and_eq_true, Bool.or_eq_true, decide_eq_true_eq, or_assoc] at quotes
      have children := ofRule quotes.1
      simp only [decide_eq_true_eq] at children
      exact node_holdsLiterals quotes.2 reads children
  | part role _ ofRule => exact markLast_holdsLiterals role (ofRule quotes)
  | only _ _ ofRule => exact ofRule quotes
  | chain _ _ ofBase =>
      obtain ⟨base, _⟩ := Bool.and_eq_true_iff.mp quotes
      exact fun tree member _ => ofBase base tree member (nowhere tree)
  | link member _ _ ofBefore ofRest =>
      -- An expression that goes on is none of a literal and an attribute.
      obtain ⟨⟨rest, notString⟩, _⟩ := (linksQuote_iff _).mp (Bool.and_eq_true_iff.mp quotes).2 _ member
      have before : ∀ tree ∈ _, ¬ (false = true ∧ tree.kind = .string) → HoldsLiterals tree :=
        ofBefore quotes
      obtain ⟨ofGap, ofAcc⟩ := List.forall_mem_append.mp fun tree member =>
        before tree member (nowhere tree)
      refine List.forall_mem_append.mpr ⟨fun tree member _ => ofGap tree member,
        List.forall_mem_singleton.mpr fun _ => .node none (fun isString => ?_) ?_⟩
      · exact absurd isString notString
      · refine List.forall_mem_cons.mpr
          ⟨fun _ => (List.forall_mem_singleton.mp ofAcc).withRole _, fun child member _ => ?_⟩
        exact ofRest rest child member (nowhere child)
  | commit _ ofRule => exact ofRule quotes
  | within _ ofRule => exact ofRule quotes
  | _ => exact fun tree member => absurd member List.not_mem_nil

end Rule

theorem grammar_quotes (symbol : Symbol) : (grammar symbol).quotes false = true := by
  cases symbol with
  | binary level =>
      exact forall_binary (fun phrase => phrase.quotes false = true) (by decide +kernel) level
  | _ => decide +kernel

theorem script_quotes : script.quotes false = true := by
  decide +kernel

theorem parse?_holdsLiterals {source : Text} {tree : Tree} (parsed : parse? source = some tree) :
    HoldsLiterals tree := by
  unfold parse? at parsed
  split at parsed
  next trees markup semicolons afterExpression found =>
    cases parsed
    have holds := (Rule.reads_of_read found).holdsLiterals grammar_quotes script_quotes
    refine .node none nofun fun child member _ => holds child member ?_
    exact fun both => Bool.false_ne_true both.1
  next => cases parsed

/-! ### Their places -/

/-- True for a place that is the value of an attribute. -/
def Place.IsInAttribute (place : Place) : Prop :=
  ∃ parent, place.parent? = some parent ∧ parent.kind = .jsxAttribute

instance : DecidablePred Place.IsInAttribute := fun place =>
  decidable_of_iff (place.parent?.any (fun parent => parent.kind = .jsxAttribute) = true) (by
    simp only [Option.any_eq_true, decide_eq_true_eq]
    exact Iff.rfl)

/-- Of the places in a script, only the value of an attribute may be another literal. -/
theorem holdsLiterals_of_parentsFirst {tree : Tree} {above : List Frame} {start : Nat} {place : Place}
    (wellFormed : tree.WellFormed) (holds : HoldsLiterals tree)
    (member : place ∈ Place.parentsFirst tree above start) :
    place.focus.WellFormed ∧
      (HoldsLiterals place.focus ∨ place.kind = .string ∧ place.IsInAttribute) := by
  refine Place.parentsFirst_induction
    (motive := fun tree above start => tree.WellFormed ∧
      (HoldsLiterals tree ∨ tree.kind = .string ∧ Place.IsInAttribute ⟨tree, above, start⟩))
    (fun role kind left child right above start ⟨wellFormed, holds⟩ => ?_)
    ⟨wellFormed, .inl holds⟩ member
  have isChild : child ∈ left.reverse ++ child :: right :=
    List.mem_append_right _ List.mem_cons_self
  refine ⟨wellFormed.children child isChild, ?_⟩
  rcases holds with holds | ⟨isString, _⟩
  · by_cases inMarkup : kind = .jsxAttribute ∧ child.kind = .string
    · exact .inr ⟨inMarkup.2, _, rfl, inMarkup.1⟩
    · cases holds with
      | node _ _ inside => exact .inl (inside child isChild inMarkup)
  · have isToken := wellFormed.nodeShape.string isString child isChild
    rw [(wellFormed.children child isChild).eq_leaf isToken]
    exact .inl (.leaf _ _ _)

/-- A string literal of a script that is not the value of an attribute is read with its value, unless one
of its escapes is misread. -/
theorem stringValue?_hasValue {source value : Text} {tree : Tree} {place : Place}
    (parsed : parse? source = some tree) (member : place ∈ Place.preorder tree)
    (isString : place.kind = .string) (outside : ¬ place.IsInAttribute)
    (hasValue : HasValue place.text value)
    (noneMisread : ∀ part ∈ place.focus.children, part.kind = .escapeSequence → ¬ IsMisread part.text) :
    stringValue? place.focus = some value := by
  rw [Place.preorder_eq] at member
  obtain ⟨wellFormed, holds⟩ := holdsLiterals_of_parentsFirst (parse?_sound parsed).2.1
    (parse?_holdsLiterals parsed) member
  have holds := holds.resolve_right fun inMarkup => outside inMarkup.2
  have isString : place.focus.kind = .string := isString
  have isNode := wellFormed.eq_node (congrArg Kind.isToken isString)
  rw [isString] at isNode
  rw [isNode] at holds
  rw [Place.text, isNode] at hasValue
  cases holds with
  | node _ quoted =>
      rw [stringValue?, if_pos isString]
      exact congrArg some ((quoted rfl).flatMap_partValue hasValue noneMisread)

/-- A literal with escapes of many families. -/
def mixedEscapes : Text := "'a\\n\\q\\x41\\u00e9\\u\x7b1F600\x7d\\0\\
😀'".toList

theorem stringValue?_hasValue_mixedEscapes :
    ∃ tree place, parse? mixedEscapes = some tree ∧ place ∈ Place.preorder tree ∧
      place.text = mixedEscapes ∧ stringValue? place.focus = some "a\nqAé😀\x00😀".toList := by
  have checked : (parse? mixedEscapes).any (fun tree => (Place.preorder tree).any fun place =>
      Decidable.decide (place.kind = .string) && Decidable.decide (¬ place.IsInAttribute) &&
        Decidable.decide (place.text = mixedEscapes) &&
        place.focus.children.all fun part => !looksMisread part.text) = true := by
    decide +kernel
  obtain ⟨tree, parsed, checked⟩ := (Option.any_eq_true _ _).mp checked
  obtain ⟨place, member, checked⟩ := List.any_eq_true.mp checked
  simp only [Bool.and_eq_true, decide_eq_true_eq] at checked
  obtain ⟨⟨⟨isString, outside⟩, text⟩, noneLooks⟩ := checked
  have noneMisread : ∀ part ∈ place.focus.children, part.kind = .escapeSequence →
      ¬ IsMisread part.text := by
    intro part isPart _ isMisread
    have looks := List.all_eq_true.mp noneLooks part isPart
    rw [isMisread.looksMisread] at looks
    cases looks
  have ascii : IsNumeral 16 "41".toList 0x41 :=
    ⟨[4, 1], .cons (by decide) (.cons (by decide) .nil), by decide, rfl⟩
  have acute : IsNumeral 16 "00e9".toList 0xe9 :=
    ⟨[0, 0, 14, 9], .cons (by decide) (.cons (by decide) (.cons (by decide)
      (.cons (by decide) .nil))), by decide, rfl⟩
  have smile : IsNumeral 16 "1F600".toList 0x1f600 :=
    ⟨[1, 15, 6, 0, 0], .cons (by decide) (.cons (by decide) (.cons (by decide) (.cons (by decide)
      (.cons (by decide) .nil)))), by decide, rfl⟩
  have isLast : ∀ next, some '\\' = some next → isDigit next = false :=
    fun next isNext => Option.some.inj isNext ▸ rfl
  have hasValue : HasValue mixedEscapes "a\nqAé😀\x00😀".toList :=
    ⟨'\x27', _, .inr rfl, rfl, .plain (by decide) (by decide) (by decide)
      (.escape (.single (by decide)) (.escape (.itself (by decide) (by decide) (by decide) (by decide))
        (.escape (.hex ascii rfl) (.escape (.unit acute rfl)
          (.escape (.codePoint smile (by decide) (by decide)) (.escape (.nul (by exact isLast))
            (.escape (.continuation (by decide) (by decide))
              (.plain (by decide) (by decide) (by decide) (.close [])))))))))⟩
  exact ⟨tree, place, parsed, member, text,
    stringValue?_hasValue parsed member isString outside (text ▸ hasValue) noneMisread⟩

/-- Literals with escapes that are misread, and their values: an octal escape, a pair of surrogates and a
line that goes on behind a separator. -/
def misreadLiterals : List (Text × Text) := [
  ("'\\101'".toList, "A".toList), ("'\\ud83d\\ude00'".toList, "😀".toList),
  ("'a\\\u2028b'".toList, "ab".toList)]

def misreadSource : Text := "f('\\101', '\\ud83d\\ude00', 'a\\\u2028b');\n".toList

theorem hasValue_misreadLiterals : ∀ entry ∈ misreadLiterals, HasValue entry.1 entry.2 := by
  have octal : IsNumeral 8 "101".toList 0x41 :=
    ⟨[1, 0, 1], .cons (by decide) (.cons (by decide) (.cons (by decide) .nil)), by decide, rfl⟩
  have high : IsNumeral 16 "d83d".toList 0xd83d :=
    ⟨[13, 8, 3, 13], .cons (by decide) (.cons (by decide) (.cons (by decide)
      (.cons (by decide) .nil))), by decide, rfl⟩
  have low : IsNumeral 16 "de00".toList 0xde00 :=
    ⟨[13, 14, 0, 0], .cons (by decide) (.cons (by decide) (.cons (by decide)
      (.cons (by decide) .nil))), by decide, rfl⟩
  refine List.forall_mem_cons.mpr ⟨?_, List.forall_mem_cons.mpr ⟨?_, List.forall_mem_singleton.mpr ?_⟩⟩
  · exact ⟨'\x27', _, .inr rfl, rfl, .escape (.octal octal (.three (by decide))) (.close [])⟩
  · exact ⟨'\x27', _, .inr rfl, rfl,
      .escape (.unit high rfl) (.escape (.unit low rfl) (.close []))⟩
  · exact ⟨'\x27', _, .inr rfl, rfl, .plain (by decide) (by decide) (by decide)
      (.escape (.continuation (by decide) (by decide))
        (.plain (by decide) (by decide) (by decide) (.close [])))⟩

/-- None of them is read with its value. -/
theorem stringValue?_misreadLiterals :
    ∃ tree, parse? misreadSource = some tree ∧ ∀ entry ∈ misreadLiterals,
      ∃ place ∈ Place.preorder tree, place.kind = .string ∧ ¬ place.IsInAttribute ∧
        HasValue place.text entry.2 ∧ stringValue? place.focus ≠ some entry.2 := by
  have checked : (parse? misreadSource).any (fun tree => misreadLiterals.all fun entry =>
      (Place.preorder tree).any fun place => Decidable.decide (place.kind = .string) &&
        Decidable.decide (¬ place.IsInAttribute) && Decidable.decide (place.text = entry.1) &&
        Decidable.decide (stringValue? place.focus ≠ some entry.2)) = true := by
    decide +kernel
  obtain ⟨tree, parsed, checked⟩ := (Option.any_eq_true _ _).mp checked
  refine ⟨tree, parsed, fun entry listed => ?_⟩
  obtain ⟨place, member, checked⟩ := List.any_eq_true.mp (List.all_eq_true.mp checked entry listed)
  simp only [Bool.and_eq_true, decide_eq_true_eq] at checked
  obtain ⟨⟨⟨isString, outside⟩, text⟩, misread⟩ := checked
  exact ⟨place, member, isString, outside, text ▸ hasValue_misreadLiterals entry listed, misread⟩

end ImportMeter.Script
