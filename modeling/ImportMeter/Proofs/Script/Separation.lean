/-
This file proves that every tree in a script spells something, and that a comma stands between the
arguments of a call.
-/
import Mathlib.Data.List.Chain
import ImportMeter.Proofs.Script.Child
import ImportMeter.Proofs.Script.Depth
import ImportMeter.Proofs.Script.Derivation

namespace ImportMeter.Script

open ImportMeter.Script.Tree
open Rule (Derives derives_all derives_any derives_node derives_ref derives_token derives_within)

/-! ### Trees that spell something -/

theorem textOfAll_ne_nil {trees : List Tree} {tree : Tree} (member : tree ∈ trees)
    (filled : tree.text ≠ []) : textOfAll trees ≠ [] := by
  obtain ⟨front, behind, rfl⟩ := List.append_of_mem member
  rw [textOfAll_append, textOfAll_cons]
  exact List.append_ne_nil_of_right_ne_nil _ (List.append_ne_nil_of_left_ne_nil filled _)

theorem mem_dropWhile_isTrivia {trees : List Tree} {tree : Tree} (member : tree ∈ trees)
    (solid : tree.isTrivia = false) : tree ∈ trees.dropWhile Tree.isTrivia := by
  rw [← List.takeWhile_append_dropWhile (p := Tree.isTrivia) (l := trees)] at member
  rcases List.mem_append.mp member with inFront | behind
  · rw [List.all_eq_true.mp List.all_takeWhile tree inFront] at solid
    cases solid
  · exact behind

/-- True for trees among which one that is no white space and no comment spells something. -/
def IsFilled (trees : List Tree) : Prop := ∃ tree ∈ trees, tree.isTrivia = false ∧ tree.text ≠ []

namespace IsFilled

variable {trees : List Tree}

theorem subset {more : List Tree} (isFilled : IsFilled trees) (subset : trees ⊆ more) :
    IsFilled more := by
  obtain ⟨tree, member, solid⟩ := isFilled
  exact ⟨tree, subset member, solid⟩

theorem text_dropWhile (isFilled : IsFilled trees) :
    textOfAll (trees.dropWhile Tree.isTrivia) ≠ [] := by
  obtain ⟨tree, member, solid, filled⟩ := isFilled
  exact textOfAll_ne_nil (mem_dropWhile_isTrivia member solid) filled

theorem markLast (isFilled : IsFilled trees) (role : Role) : IsFilled (Tree.markLast role trees) := by
  obtain ⟨tree, member, solid, filled⟩ := isFilled
  rcases List.eq_nil_or_concat trees with rfl | ⟨before, last, rfl⟩
  · cases member
  · rw [List.concat_eq_append] at member ⊢
    rw [markLast_append]
    rcases List.mem_append.mp member with inFront | isLast
    · exact ⟨tree, List.mem_append_left _ inFront, solid, filled⟩
    · obtain rfl := List.mem_singleton.mp isLast
      refine ⟨tree.withRole (some role), List.mem_append_right _ (List.mem_singleton_self _), ?_, ?_⟩
      · rwa [Tree.isTrivia, Tree.kind_withRole]
      · rwa [text_withRole]

end IsFilled

namespace Rule

variable {Symbol : Type} {grammar : Symbol → Rule Symbol} {rank : Symbol → Nat} {rule : Rule Symbol}
  {trees : List Tree}

theorem isTrivia_of_notToken {kind : Kind} (notToken : (!kind.isToken) = true) :
    kind.isTrivia = false := by
  cases kind <;> first
    | rfl
    | cases notToken

/-- What a rule derives that takes characters is filled. -/
theorem Derives.isFilled (grounded : Grounded grammar rank)
    (isShaped : ∀ symbol, (grammar symbol).isShaped grammar = true)
    (derives : Derives grammar rule trees) (shallow : rule.isShallow rank = true)
    (shaped : rule.isShaped grammar = true) (consuming : rule.consumes = true) : IsFilled trees := by
  have ofToken : ∀ {kind : Kind} {lexeme : Lexeme} {letters : Text},
      (!kind.isTrivia && lexeme.consumes) = true → lexeme.Takes letters →
        IsFilled [.leaf none kind letters] := by
    intro kind lexeme letters solid takes
    rw [Bool.and_eq_true, Bool.not_eq_true'] at solid
    obtain ⟨text, length, found, rfl⟩ := takes
    exact ⟨_, List.mem_singleton_self _, solid.1, Lexeme.length?_take solid.2 found⟩
  induction derives with
  | token isGap takes => exact (ofToken shallow takes).subset (List.subset_append_right _ _)
  | glued takes => exact ofToken shallow takes
  | gap | implied | written | unbroken | allNil | manyNil | manyCons | «unless» | endExpression
  | reopen => cases consuming
  | @ref symbol trees _ inductionHypothesis =>
      exact inductionHypothesis (grounded.isShallow symbol) (isShaped symbol) (grounded.consumes symbol)
  | allCons _ _ firstHypothesis behindHypothesis =>
      rw [isShallow, isShallow.allShallow, Bool.and_eq_true, Bool.and_eq_true] at shallow
      rw [Rule.isShaped, Rule.isShaped.allShaped, Bool.and_eq_true] at shaped
      rw [consumes, consumes.someConsumes, Bool.or_eq_true] at consuming
      rcases consuming with first | later
      · exact (firstHypothesis shallow.1.1 shaped.1 first).subset (List.subset_append_left _ _)
      · exact (behindHypothesis shallow.2 shaped.2 later).subset (List.subset_append_right _ _)
  | any member _ inductionHypothesis =>
      exact inductionHypothesis ((allShallow_iff _).mp shallow _ member).1
        ((allShaped_iff _ _).mp shaped _ member) (consumes_of_mem consuming member)
  | node kind _ inductionHypothesis =>
      rw [Rule.isShaped, Bool.and_eq_true] at shaped
      have isNode := (Bool.and_eq_true_iff.mp shaped.2).1
      refine ⟨_, List.mem_append_right _ (List.mem_singleton_self _), isTrivia_of_notToken isNode, ?_⟩
      rw [text_node]
      exact (inductionHypothesis shallow shaped.1 consuming).text_dropWhile
  | part role _ inductionHypothesis =>
      exact (inductionHypothesis shallow shaped consuming).markLast role
  | only _ _ inductionHypothesis | commit _ inductionHypothesis | within _ _ inductionHypothesis =>
      exact inductionHypothesis shallow shaped consuming
  | chain links _ inductionHypothesis =>
      rw [isShallow, Bool.and_eq_true, Bool.and_eq_true] at shallow
      rw [Rule.isShaped, Bool.and_eq_true] at shaped
      exact inductionHypothesis shallow.1.1 shaped.1 consuming
  | @link base links link gap more acc member _ _ beforeHypothesis _ =>
      obtain ⟨tree, isIn, solid, filled⟩ := beforeHypothesis shallow shaped consuming
      rw [Rule.isShaped, Bool.and_eq_true, linksShaped_iff] at shaped
      have isNode := (Bool.and_eq_true_iff.mp (shaped.2 link member).2).1
      rcases List.mem_append.mp isIn with inGap | isAcc
      · exact ⟨tree, List.mem_append_left _ inGap, solid, filled⟩
      · obtain rfl := List.mem_singleton.mp isAcc
        refine ⟨_, List.mem_append_right _ (List.mem_singleton_self _), isTrivia_of_notToken isNode, ?_⟩
        rw [text_node, textOfAll_cons, text_withRole]
        exact List.append_ne_nil_of_left_ne_nil filled _

end Rule

/-- True for a rule whose trees spell something and are no white space and no comments, if it is one that
builds trees. -/
def spells : Phrase → Bool
  | .token kind lexeme | .glued kind lexeme => !kind.isTrivia && lexeme.consumes
  | .node kind rule => !kind.isTrivia && (rule.isShallow rank && rule.isShaped grammar && rule.consumes)
  | .chain _ links => links.all (!·.kind.isTrivia)
  | _ => true

theorem grammar_spells (symbol : Symbol) : (grammar symbol).builders.all spells = true := by
  cases symbol with
  | binary level =>
      exact forall_binary (fun phrase => phrase.builders.all spells = true) (by decide +kernel) level
  | _ => decide +kernel

theorem IsBuilder.spells {rule : Phrase} (isBuilder : IsBuilder rule) : spells rule = true :=
  isBuilder.passes (by decide +kernel) grammar_spells

/-- No tree in a script is empty. -/
theorem text_ne_nil {tree : Tree} (builtBy : Rule.BuiltBy grammar IsBuilder tree) : tree.text ≠ [] := by
  induction builtBy with
  | trivia _ shape =>
      obtain ⟨first, rest, rfl, -⟩ := shape.opens
      exact List.cons_ne_nil _ _
  | semicolon => exact List.cons_ne_nil _ _
  | token _ isAmong takes =>
      have passes := isAmong.elim IsBuilder.spells IsBuilder.spells
      obtain ⟨text, length, found, rfl⟩ := takes
      exact Lexeme.length?_take (Bool.and_eq_true_iff.mp passes).2 found
  | node _ isAmong derives _ _ =>
      have passes := isAmong.spells
      rw [spells, Bool.and_eq_true, Bool.and_eq_true, Bool.and_eq_true] at passes
      obtain ⟨-, ⟨shallow, shaped⟩, consuming⟩ := passes
      rw [text_node]
      exact (derives.isFilled grammar_grounded grammar_isShaped shallow shaped consuming).text_dropWhile
  | link _ _ _ _ _ beforeHypothesis _ =>
      rw [text_node, textOfAll_cons, text_withRole]
      exact List.append_ne_nil_of_left_ne_nil beforeHypothesis _

/-- White space and comments look like what they are. -/
theorem gapShape {tree : Tree} (builtBy : Rule.BuiltBy grammar IsBuilder tree)
    (trivia : tree.isTrivia = true) : GapShape tree.kind tree.text := by
  have solid : ∀ {kind : Kind} {other : Bool}, (!kind.isTrivia && other) = true → kind.isTrivia = false :=
    fun passes => (Bool.not_eq_true' _).mp (Bool.and_eq_true_iff.mp passes).1
  cases builtBy with
  | trivia _ shape => exact shape
  | semicolon => cases trivia
  | token _ isAmong _ =>
      cases (solid (isAmong.elim IsBuilder.spells IsBuilder.spells)).symm.trans trivia
  | node _ isAmong _ _ => cases (solid isAmong.spells).symm.trans trivia
  | link _ isAmong member _ _ =>
      have passes := List.all_eq_true.mp isAmong.spells _ member
      cases ((Bool.not_eq_true' _).mp passes).symm.trans trivia

/-! ### What stands in front of arguments -/

/-- True for a rule that reads a question mark and a dot, if it reads what makes a call optional. -/
def marksChain : Phrase → Bool
  | .token .optionalChain (.mark letters) => letters = ['?', '.']
  | rule => !rule.builds .optionalChain

theorem grammar_marksChain (symbol : Symbol) : (grammar symbol).builders.all marksChain = true := by
  cases symbol with
  | binary level =>
      exact forall_binary (fun phrase => phrase.builders.all marksChain = true) (by decide +kernel) level
  | _ => decide +kernel

theorem IsBuilder.marksChain {rule : Phrase} (isBuilder : IsBuilder rule) : marksChain rule = true :=
  isBuilder.passes (by decide +kernel) grammar_marksChain

theorem takes_optionalChain {lexeme : Lexeme} {letters : Text}
    (isBuilder : IsBuilder (.token .optionalChain lexeme) ∨ IsBuilder (.glued .optionalChain lexeme))
    (takes : lexeme.Takes letters) : letters = ['?', '.'] := by
  rcases isBuilder with isToken | isGlued
  · have passes := isToken.marksChain
    unfold Script.marksChain at passes
    split at passes
    next same =>
      obtain ⟨_, rfl⟩ := Rule.token.inj same
      rw [Rule.takes_mark takes]
      exact of_decide_eq_true passes
    next => cases passes
  · cases isGlued.marksChain

/-- What stands between a callee and its arguments begins with no part of a name. -/
theorem opens_between {tree : Tree} (builtBy : Rule.BuiltBy grammar IsBuilder tree)
    (between : BetweenCall tree) :
    ∃ first rest, tree.text = first :: rest ∧ isNamePart first = false ∧ first ≠ '\\' := by
  obtain ⟨kind, letters, rfl, trivia | rfl⟩ := between
  · exact (gapShape builtBy trivia).opens
  · refine ⟨'?', ['.'], ?_, by decide, by decide⟩
    cases builtBy with
    | trivia _ shape => cases shape.isTrivia
    | token _ isAmong takes => exact takes_optionalChain isAmong takes

/-! ### Trees of their own -/

/-- True for one tree behind white space and comments. -/
def IsSole (trees : List Tree) : Prop :=
  ∃ front tree, trees = front ++ [tree] ∧ (∀ other ∈ front, other.isTrivia = true) ∧
    tree.isTrivia = false

namespace Rule

variable {Symbol : Type} {grammar : Symbol → Rule Symbol} {sole : Symbol → Bool} {rule : Rule Symbol}
  {trees : List Tree}

/-- True for a rule that reads nothing. -/
def isIdle : Rule Symbol → Bool
  | .unless _ | .unbroken _ | .endExpression | .reopen => true
  | _ => false

/-- True if a rule reads one tree behind white space and comments, provided that some symbols do. -/
def isSole (sole : Symbol → Bool) : Rule Symbol → Bool
  | .token kind _ | .glued kind _ => !kind.isTrivia
  | .ref symbol => sole symbol
  | .all rules => soleAmong rules
  | .any rules => eachSole rules
  | .node kind _ => !kind.isTrivia
  | .part _ rule | .only _ rule | .commit rule | .within _ rule => isSole sole rule
  | .chain base links => isSole sole base && links.all (!·.kind.isTrivia)
  | _ => false
where
  soleAmong : List (Rule Symbol) → Bool
    | [] => false
    | rule :: rules => rule.isIdle && soleAmong rules || isSole sole rule && rules.all isIdle
  eachSole : List (Rule Symbol) → Bool
    | [] => true
    | rule :: rules => isSole sole rule && eachSole rules

theorem eachSole_of_mem {rules : List (Rule Symbol)} (each : isSole.eachSole sole rules = true)
    (member : rule ∈ rules) : rule.isSole sole = true := by
  induction rules with
  | nil => cases member
  | cons first rules inductionHypothesis =>
      rw [isSole.eachSole, Bool.and_eq_true] at each
      rcases List.mem_cons.mp member with rfl | later
      · exact each.1
      · exact inductionHypothesis each.2 later

theorem Derives.of_isIdle (derives : Derives grammar rule trees) (idle : rule.isIdle = true) :
    trees = [] := by
  cases derives <;> first
    | rfl
    | cases idle

theorem Derives.of_all_isIdle {rules : List (Rule Symbol)} (derives : Derives grammar (.all rules) trees)
    (idle : rules.all isIdle = true) : trees = [] := by
  obtain ⟨parts, each, rfl⟩ := derives_all.mp derives
  induction each with
  | nil => rfl
  | cons first others inductionHypothesis =>
      rw [List.all_cons, Bool.and_eq_true] at idle
      rw [List.flatten_cons, first.of_isIdle idle.1, List.nil_append]
      exact inductionHypothesis idle.2 (derives_all.mpr ⟨_, others, rfl⟩)

/-- What a rule derives that reads one tree is one. -/
theorem Derives.isSole (ofSymbol : ∀ symbol, sole symbol = true → (grammar symbol).isSole sole = true)
    (derives : Derives grammar rule trees) (one : rule.isSole sole = true) : IsSole trees := by
  induction derives with
  | token isGap _ =>
      exact ⟨_, _, rfl, isGap.isTrivia, (Bool.not_eq_true' _).mp one⟩
  | glued => exact ⟨[], _, rfl, nofun, (Bool.not_eq_true' _).mp one⟩
  | gap | implied | written | unbroken | allNil | manyNil | manyCons | «unless» | endExpression
  | reopen => cases one
  | @ref symbol _ _ inductionHypothesis => exact inductionHypothesis (ofSymbol symbol one)
  | allCons first behind firstHypothesis behindHypothesis =>
      rw [Rule.isSole, isSole.soleAmong, Bool.or_eq_true, Bool.and_eq_true, Bool.and_eq_true] at one
      rcases one with ⟨idle, later⟩ | ⟨own, idle⟩
      · rw [first.of_isIdle idle, List.nil_append]
        exact behindHypothesis later
      · rw [behind.of_all_isIdle idle, List.append_nil]
        exact firstHypothesis own
  | any member _ inductionHypothesis => exact inductionHypothesis (eachSole_of_mem one member)
  | node kind _ _ =>
      exact ⟨_, _, rfl, List.all_eq_true.mp List.all_takeWhile, (Bool.not_eq_true' _).mp one⟩
  | part role _ inductionHypothesis =>
      obtain ⟨front, tree, rfl, trivia, solid⟩ := inductionHypothesis one
      refine ⟨front, tree.withRole (some role), markLast_append role front tree, trivia, ?_⟩
      rwa [Tree.isTrivia, Tree.kind_withRole]
  | only _ _ inductionHypothesis | commit _ inductionHypothesis | within _ _ inductionHypothesis =>
      exact inductionHypothesis one
  | chain links _ inductionHypothesis => exact inductionHypothesis (Bool.and_eq_true_iff.mp one).1
  | @link base links link gap _ acc member _ _ beforeHypothesis _ =>
      obtain ⟨front, tree, same, trivia, _⟩ := beforeHypothesis one
      obtain ⟨rfl, _⟩ := List.append_inj' same rfl
      have solid := List.all_eq_true.mp (Bool.and_eq_true_iff.mp one).2 link member
      exact ⟨gap, _, rfl, trivia, (Bool.not_eq_true' _).mp solid⟩

end Rule

/-- True for the symbols of expressions and of what they are made of. -/
def isOperand : Symbol → Bool
  | .expression | .binary _ | .unary | .operand | .postfixed | .primary | .newExpression | .importCall
  | .arrowFunction | .parenthesized | .array | .object | .functionExpression | .classExpression
  | .string | .template | .regex | .element => true
  | _ => false

theorem grammar_isSole (symbol : Symbol) (operand : isOperand symbol = true) :
    (grammar symbol).isSole isOperand = true := by
  cases symbol with
  | binary level =>
      exact forall_binary (fun phrase => phrase.isSole isOperand = true) (by decide +kernel) level
  | _ => first
    | decide +kernel
    | cases operand

/-! ### Arguments -/

/-- True for an argument that is no comment of any kind. -/
def isItem (tree : Tree) : Bool := tree.isArgument && !tree.isTrivia

/-- True for neighbours of which one at least is no argument. -/
def Parted (first second : Tree) : Prop := isItem first = false ∨ isItem second = false

section

variable {trees first second : List Tree} {rule : Phrase}

theorem isItem_of_isTrivia {tree : Tree} (trivia : tree.isTrivia = true) : isItem tree = false := by
  rw [isItem, trivia, Bool.not_true, Bool.and_false]

theorem isItem_mark (letters : Text) : isItem (.leaf none .mark letters) = false := rfl

theorem isChain_parted (plain : ∀ tree ∈ trees, isItem tree = false) : trees.IsChain Parted := by
  induction trees with
  | nil => exact .nil
  | cons tree trees inductionHypothesis =>
      obtain ⟨own, others⟩ := List.forall_mem_cons.mp plain
      exact List.isChain_cons.mpr ⟨fun _ _ => .inl own, inductionHypothesis others⟩

/-- Lists are parted where the first ends with no argument. -/
theorem isChain_append_left (firstParted : first.IsChain Parted) (secondParted : second.IsChain Parted)
    (plain : ∀ tree ∈ first, isItem tree = false) : (first ++ second).IsChain Parted :=
  List.isChain_append.mpr ⟨firstParted, secondParted, fun tree isLast _ _ =>
    .inl (plain tree (List.mem_of_getLast? isLast))⟩

/-- Lists are parted where the second begins with no argument. -/
theorem isChain_append_right (firstParted : first.IsChain Parted) (secondParted : second.IsChain Parted)
    (begins : ∀ tree ∈ second.head?, isItem tree = false) : (first ++ second).IsChain Parted :=
  List.isChain_append.mpr ⟨firstParted, secondParted, fun _ _ tree isHead => .inr (begins tree isHead)⟩

theorem IsSole.isChain (isSole : IsSole trees) : trees.IsChain Parted := by
  obtain ⟨front, tree, rfl, trivia, _⟩ := isSole
  have plain : ∀ other ∈ front, isItem other = false := fun other member =>
    isItem_of_isTrivia (trivia other member)
  exact isChain_append_left (isChain_parted plain) (List.isChain_singleton tree) plain

theorem isItem_of_derives_mark {letters : Text} (derives : Derives grammar (Phrase.mark letters) trees) :
    trees ≠ [] ∧ ∀ tree ∈ trees, isItem tree = false := by
  obtain ⟨gap, taken, isGap, _, rfl⟩ := derives_token.mp derives
  refine ⟨List.append_ne_nil_of_right_ne_nil gap (List.cons_ne_nil _ _),
    List.forall_mem_append.mpr ⟨fun tree member => isItem_of_isTrivia (isGap.isTrivia tree member), ?_⟩⟩
  exact List.forall_mem_singleton.mpr (isItem_mark taken)

/-- Each item behind a comma is parted from what stands in front of the comma. -/
theorem isChain_many (item : ∀ trees, Derives grammar rule trees → trees.IsChain Parted)
    (derives : Derives grammar (.many (.all [Phrase.mark [','], rule])) trees) :
    trees.IsChain Parted ∧ ∀ tree ∈ trees.head?, isItem tree = false := by
  generalize isMany : Rule.many (.all [Phrase.mark [','], rule]) = whole at derives
  induction derives with
  | manyNil => exact ⟨.nil, nofun⟩
  | manyCons ofFirst _ _ behindHypothesis =>
      cases isMany
      obtain ⟨parts, each, rfl⟩ := derives_all.mp ofFirst
      obtain _ | ⟨ofMark, _ | ⟨ofItem, ⟨⟩⟩⟩ := each
      obtain ⟨filled, plain⟩ := isItem_of_derives_mark ofMark
      obtain ⟨chain, begins⟩ := behindHypothesis rfl
      rw [List.flatten_cons, List.flatten_cons, List.flatten_nil, List.append_nil]
      refine ⟨isChain_append_right ?_ chain begins, ?_⟩
      · exact isChain_append_left (isChain_parted plain) (item _ ofItem) plain
      · rw [List.append_assoc, List.head?_append_of_ne_nil _ filled]
        exact fun tree isHead => plain tree (List.mem_of_mem_head? isHead)
  | _ => cases isMany

theorem isChain_separated (item : ∀ trees, Derives grammar rule trees → trees.IsChain Parted)
    (derives : Derives grammar (Phrase.separated rule) trees) : trees.IsChain Parted := by
  obtain ⟨parts, each, rfl⟩ := derives_all.mp derives
  obtain _ | ⟨ofFirst, _ | ⟨ofOthers, ⟨⟩⟩⟩ := each
  obtain ⟨chain, begins⟩ := isChain_many item ofOthers
  rw [List.flatten_cons, List.flatten_cons, List.flatten_nil, List.append_nil]
  exact isChain_append_right (item _ ofFirst) chain begins

/-- An argument may be left out. -/
theorem isChain_argument (derives : Derives grammar
    (Phrase.optional (.any [.ref .expression, Phrase.spread])) trees) : trees.IsChain Parted := by
  obtain ⟨chosen, member, derives⟩ := derives_any.mp derives
  rcases List.mem_cons.mp member with rfl | isNothing
  · exact (derives.isSole grammar_isSole rfl).isChain
  · obtain rfl := List.mem_singleton.mp isNothing
    rw [derives.of_all_isIdle rfl]
    exact .nil

theorem isChain_arguments (derives : Derives grammar Phrase.arguments trees) :
    ∃ front children, trees = front ++ [.node none .arguments children] ∧
      children.IsChain Parted := by
  obtain ⟨inner, ofInner, rfl⟩ := derives_node.mp derives
  refine ⟨_, _, rfl, List.IsChain.suffix ?_ (List.dropWhile_suffix _)⟩
  obtain ⟨parts, each, rfl⟩ := derives_all.mp (derives_within.mp ofInner)
  obtain _ | ⟨ofOpening, _ | ⟨ofCommit, ⟨⟩⟩⟩ := each
  obtain ⟨_, opening⟩ := isItem_of_derives_mark ofOpening
  cases ofCommit with
  | commit ofList =>
      obtain ⟨parts, each, rfl⟩ := derives_all.mp ofList
      obtain _ | ⟨ofSparse, _ | ⟨ofClosing, ⟨⟩⟩⟩ := each
      obtain ⟨_, closing⟩ := isItem_of_derives_mark ofClosing
      simp only [List.flatten_cons, List.flatten_nil, List.append_nil]
      refine isChain_append_left (isChain_parted opening) ?_ opening
      refine isChain_append_right (isChain_separated (fun _ => isChain_argument) ofSparse)
        (isChain_parted closing) fun tree isHead => closing tree (List.mem_of_mem_head? isHead)

end

theorem grammar_buildsArguments (symbol : Symbol) (other : symbol ≠ .arguments) :
    (grammar symbol).builders.all (fun rule => !rule.builds .arguments) = true := by
  cases symbol with
  | arguments => exact absurd rfl other
  | binary level =>
      exact forall_binary
        (fun phrase => phrase.builders.all (fun rule => !rule.builds .arguments) = true)
        (by decide +kernel) level
  | _ => decide +kernel

/-- Only one rule builds arguments. -/
theorem eq_arguments {rule : Phrase} (isBuilder : IsBuilder rule) (builds : rule.builds .arguments = true) :
    rule = Phrase.arguments :=
  isBuilder.eq_of_builds builds (by decide +kernel) grammar_buildsArguments rfl (by decide +kernel)

/-- No two arguments of a call stand side by side, comments in the way of markup apart. -/
theorem isChain_children {tree : Tree} (builtBy : Rule.BuiltBy grammar IsBuilder tree)
    (isArguments : tree.kind = .arguments) : tree.children.IsChain Parted := by
  cases builtBy with
  | trivia | semicolon | token => exact .nil
  | node role isAmong derives =>
      have same := eq_arguments isAmong (decide_eq_true isArguments)
      obtain ⟨front, children, isSplit, chain⟩ :=
        isChain_arguments (same ▸ derives_node.mpr ⟨_, derives, rfl⟩)
      obtain ⟨_, isNode⟩ := List.append_inj' isSplit rfl
      cases isNode
      exact chain
  | link _ isAmong member =>
      cases eq_arguments isAmong (List.any_eq_true.mpr ⟨_, member, by exact decide_eq_true isArguments⟩)

/-! ### String literals -/

/-- True for a rule that reads a string literal between two quotes, if it reads string literals. -/
def delimits : Phrase → Bool
  | .node .string (.all [.token .mark _, .many _, .token .mark _]) => true
  | rule => !rule.builds .string

theorem grammar_delimits (symbol : Symbol) : (grammar symbol).builders.all delimits = true := by
  cases symbol with
  | binary level =>
      exact forall_binary (fun phrase => phrase.builders.all delimits = true) (by decide +kernel) level
  | _ => decide +kernel

theorem IsBuilder.delimits {rule : Phrase} (isBuilder : IsBuilder rule) : delimits rule = true :=
  isBuilder.passes (by decide +kernel) grammar_delimits

theorem exists_delimiters {rule : Phrase} (passes : delimits (.node .string rule) = true) :
    ∃ opening part closing,
      rule = .all [.token .mark opening, .many part, .token .mark closing] := by
  unfold delimits at passes
  split at passes
  next same => exact ⟨_, _, _, (Rule.node.inj same).2⟩
  next => cases passes

/-- A string literal stands between two marks. -/
theorem exists_between_marks {role : Option Role} {children : List Tree}
    (builtBy : Rule.BuiltBy grammar IsBuilder (.node role .string children)) :
    ∃ first between last,
      children = .leaf none .mark first :: (between ++ [.leaf none .mark last]) := by
  generalize same : Tree.node role .string children = tree at builtBy
  cases builtBy with
  | trivia | semicolon | token => cases same
  | node _ isAmong derives _ =>
      cases same
      obtain ⟨opening, part, closing, rfl⟩ := exists_delimiters isAmong.delimits
      obtain ⟨parts, each, rfl⟩ := derives_all.mp derives
      obtain _ | ⟨ofOpening, _ | ⟨_, _ | ⟨ofClosing, ⟨⟩⟩⟩⟩ := each
      obtain ⟨gap, first, isGap, _, rfl⟩ := derives_token.mp ofOpening
      obtain ⟨behind, last, _, _, rfl⟩ := derives_token.mp ofClosing
      rw [List.flatten_cons, List.append_assoc, List.singleton_append, dropWhile_isTrivia isGap rfl,
        List.flatten_cons, List.flatten_singleton, ← List.append_assoc]
      exact ⟨first, _, last, rfl⟩
  | @link _ base links _ _ _ isAmong member =>
      have builtNot : (!(Rule.chain base links).builds .string) = true := isAmong.delimits
      have builds : (Rule.chain base links).builds .string = true :=
        List.any_eq_true.mpr ⟨_, member, decide_eq_true (Tree.node.inj same).2.1.symm⟩
      rw [builds] at builtNot
      cases builtNot

theorem length_textOfAll_le {trees : List Tree} (filled : ∀ tree ∈ trees, tree.text ≠ []) :
    trees.length ≤ (textOfAll trees).length := by
  induction trees with
  | nil => exact Nat.le_refl 0
  | cons tree trees inductionHypothesis =>
      obtain ⟨own, others⟩ := List.forall_mem_cons.mp filled
      have positive := List.length_pos_iff.mpr own
      have behind := inductionHypothesis others
      rw [textOfAll_cons, List.length_append, List.length_cons]
      omega

/-- A string literal with a value other than the empty one has at least three characters. -/
theorem length_literal {tree : Tree} (builtBy : Rule.BuiltBy grammar IsBuilder tree) {value : Text}
    (found : stringValue? tree = some value) (filled : value ≠ []) : 3 ≤ tree.text.length := by
  rw [stringValue?] at found
  split at found
  next isString =>
    cases found
    cases tree with
    | leaf => exact absurd rfl filled
    | node role kind children =>
        obtain rfl : kind = .string := isString
        obtain ⟨first, between, last, rfl⟩ := exists_between_marks builtBy
        have inside := builtBy.children
        have stands : between ≠ [] := by
          rintro rfl
          exact filled rfl
        have positive := List.length_pos_iff.mpr stands
        rw [text_node]
        refine Nat.le_trans ?_ (length_textOfAll_le fun child member => text_ne_nil (inside child member))
        rw [List.length_cons, List.length_append, List.length_singleton]
        omega
  next => cases found

end ImportMeter.Script
