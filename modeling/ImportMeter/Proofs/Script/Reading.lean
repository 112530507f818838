/-
This file proves that a script's syntax tree keeps the whole source and has the shape of syntax trees.
It does so for all grammars whose rules pass the check.
-/
import ImportMeter.Proofs.Script.Following
import ImportMeter.Proofs.Script.RuleShape

namespace ImportMeter.Script

open ImportMeter.Script.Tree

theorem takeWhile_isTrivia {gap : List Tree} (isGap : IsGap gap) {tree : Tree}
    (solid : tree.isTrivia = false) (more : List Tree) :
    (gap ++ tree :: more).takeWhile Tree.isTrivia = gap := by
  rw [List.takeWhile_append_of_pos isGap.isTrivia, List.takeWhile_cons_of_neg (by simp [solid]),
    List.append_nil]

theorem dropWhile_isTrivia {gap : List Tree} (isGap : IsGap gap) {tree : Tree}
    (solid : tree.isTrivia = false) (more : List Tree) :
    (gap ++ tree :: more).dropWhile Tree.isTrivia = tree :: more := by
  rw [List.dropWhile_append_of_pos isGap.isTrivia, List.dropWhile_cons_of_neg (by simp [solid])]

theorem textOfAll_gather (kind : Kind) (trees : List Tree) :
    textOfAll (gather kind trees) = textOfAll trees := by
  rw [gather, textOfAll_append, textOfAll_cons, text_node, textOfAll_nil, List.append_nil,
    ← textOfAll_append, List.takeWhile_append_dropWhile]

theorem textOfAll_markLast (role : Role) (trees : List Tree) :
    textOfAll (markLast role trees) = textOfAll trees := by
  induction trees with
  | nil => rfl
  | cons tree rest inductionHypothesis =>
      cases rest with
      | nil => rw [markLast, textOfAll_cons, textOfAll_cons, text_withRole]
      | cons => rw [markLast, textOfAll_cons, textOfAll_cons, inductionHypothesis]; nofun

theorem markLast_append (role : Role) (before : List Tree) (last : Tree) :
    markLast role (before ++ [last]) = before ++ [last.withRole role] := by
  induction before with
  | nil => rfl
  | cons tree before inductionHypothesis =>
      cases before with
      | nil => rfl
      | cons second rest =>
          have others : markLast role (tree :: second :: (rest ++ [last])) =
              tree :: markLast role (second :: (rest ++ [last])) := by
            rw [markLast]
            nofun
          exact others.trans (congrArg (tree :: ·) inductionHypothesis)

theorem wellFormed_markLast {role : Role} {trees : List Tree}
    (wellFormed : ∀ tree ∈ trees, WellFormed tree) :
    ∀ tree ∈ markLast role trees, WellFormed tree := by
  rcases List.eq_nil_or_concat trees with rfl | ⟨before, last, rfl⟩
  · exact wellFormed
  · rw [List.concat_eq_append] at wellFormed ⊢
    rw [markLast_append]
    simp only [List.forall_mem_append, List.forall_mem_singleton] at wellFormed ⊢
    exact ⟨wellFormed.1, wellFormed.2.withRole role⟩

namespace Rule

variable {Symbol : Type} {grammar : Symbol → Rule Symbol} {rule : Rule Symbol} {kind : Kind}
  {lexeme : Lexeme} {letters : Text} {trees : List Tree} {state next : State}

/-- What has been read between two states: trees of the right shape that keep the text. -/
def Sound (state : State) (trees : List Tree) (next : State) : Prop :=
  textOfAll trees ++ next.rest = state.rest ∧ ∀ tree ∈ trees, WellFormed tree

namespace Sound

theorem empty (same : next.rest = state.rest) : Sound state [] next := by
  refine ⟨same, ?_⟩
  intro tree member
  cases member

theorem append {middle : State} {first second : List Tree} (firstSound : Sound state first middle)
    (secondSound : Sound middle second next) : Sound state (first ++ second) next := by
  refine ⟨?_, ?_⟩
  · rw [textOfAll_append, List.append_assoc, secondSound.1, firstSound.1]
  · exact List.forall_mem_append.mpr ⟨firstSound.2, secondSound.2⟩

theorem gather (sound : Sound state trees next)
    (shape : NodeShape kind (trees.dropWhile Tree.isTrivia)) :
    Sound state (gather kind trees) next := by
  refine ⟨by rw [textOfAll_gather, sound.1], ?_⟩
  refine List.forall_mem_append.mpr ⟨fun tree member => sound.2 tree ?_, ?_⟩
  · exact List.IsPrefix.mem member (List.takeWhile_prefix _)
  · rw [List.forall_mem_singleton]
    exact .node shape fun tree member => sound.2 tree
      (List.IsSuffix.mem member (List.dropWhile_suffix _))

theorem markLast (sound : Sound state trees next) (role : Role) :
    Sound state (markLast role trees) next :=
  ⟨by rw [textOfAll_markLast, sound.1], wellFormed_markLast sound.2⟩

/-- An expression stays sound when it goes on. -/
theorem link {middle : State} {gap more : List Tree} {acc : Tree} {role : Option Role}
    (sound : Sound state (gap ++ [acc]) middle) (moreSound : Sound middle more next)
    (shape : NodeShape kind (acc.withRole role :: more)) :
    Sound state (gap ++ [.node none kind (acc.withRole role :: more)]) next := by
  refine ⟨?_, ?_⟩
  · rw [← (sound.append moreSound).1]
    simp
  · obtain ⟨ofGap, ofAcc⟩ := List.forall_mem_append.mp sound.2
    refine List.forall_mem_append.mpr ⟨ofGap, List.forall_mem_singleton.mpr (.node shape ?_)⟩
    exact List.forall_mem_cons.mpr
      ⟨(List.forall_mem_singleton.mp ofAcc).withRole role, moreSound.2⟩

end Sound

/-! ### What single rules read -/

theorem Reads.isGap (reads : Reads grammar .gap state trees next) :
    IsGap trees ∧ textOfAll trees ++ next.rest = state.rest := by
  cases reads with
  | gap _ fuel => exact gapOf_sound state.markup fuel state.rest

theorem Reads.token_eq (reads : Reads grammar (.token kind lexeme) state trees next) :
    ∃ gap letters, IsGap gap ∧ lexeme.Takes letters ∧ trees = gap ++ [.leaf none kind letters] ∧
      textOfAll gap ++ letters ++ next.rest = state.rest := by
  cases reads with
  | token before behind =>
      obtain ⟨isGap, kept⟩ := before.isGap
      cases behind with
      | glued taken =>
          refine ⟨_, _, isGap, ⟨_, _, taken, rfl⟩, rfl, ?_⟩
          rw [List.append_assoc, List.take_append_drop, kept]

/-- A token that passes the test for opening or closing is spelled out. -/
theorem takes_of_test {taken : Text} (test : (decide (kind = .mark) && match lexeme with
      | .mark same | .word same => decide (same = letters)
      | _ => false) = true) (takes : lexeme.Takes taken) : kind = .mark ∧ taken = letters := by
  rw [Bool.and_eq_true, decide_eq_true_eq] at test
  refine ⟨test.1, ?_⟩
  cases lexeme with
  | mark same => exact (takes_mark takes).trans (of_decide_eq_true test.2)
  | word same => exact (takes_word takes).trans (of_decide_eq_true test.2)
  | _ => exact absurd test.2 (by simp)

theorem Reads.opensWith (reads : Reads grammar rule state trees next)
    (opens : rule.opensWith letters = true) :
    ∃ gap more, IsGap gap ∧ trees = gap ++ .leaf none .mark letters :: more := by
  induction reads with
  | token before behind =>
      obtain ⟨gap, taken, isGap, takes, same, _⟩ := (before.token behind).token_eq
      obtain ⟨rfl, rfl⟩ := takes_of_test opens takes
      exact ⟨gap, [], isGap, same⟩
  | allCons _ _ ofFirst =>
      obtain ⟨gap, more, isGap, rfl⟩ := ofFirst opens
      exact ⟨gap, _, isGap, List.append_assoc _ _ _⟩
  | within _ ofRule => exact ofRule opens
  | _ => cases opens

theorem Reads.closesWith (reads : Reads grammar rule state trees next)
    (closes : rule.closesWith letters = true) : ∃ more, trees = more ++ [.leaf none .mark letters] := by
  induction reads with
  | token before behind =>
      obtain ⟨gap, taken, _, takes, same, _⟩ := (before.token behind).token_eq
      obtain ⟨rfl, rfl⟩ := takes_of_test closes takes
      exact ⟨gap, same⟩
  | @allCons _ rules _ _ _ first _ _ behind ofFirst ofOthers =>
      cases rules with
      | nil =>
          cases behind
          rw [List.append_nil]
          exact ofFirst closes
      | cons =>
          obtain ⟨more, rfl⟩ := ofOthers closes
          exact ⟨first ++ more, (List.append_assoc _ _ _).symm⟩
  | within _ ofRule => exact ofRule closes
  | commit _ ofRule => exact ofRule closes
  | _ => cases closes

theorem allFlat_iff (rules : List (Rule Symbol)) :
    isFlat.allFlat rules = true ↔ ∀ rule ∈ rules, rule.isFlat = true := by
  induction rules with
  | nil => simp [isFlat.allFlat]
  | cons rule rules inductionHypothesis =>
      simp only [isFlat.allFlat, Bool.and_eq_true, inductionHypothesis, List.forall_mem_cons]

/-- A rule that reads tokens only gives tokens only. -/
theorem Reads.isFlat (reads : Reads grammar rule state trees next) (flat : rule.isFlat = true)
    (shaped : rule.isShaped grammar = true) : ∀ tree ∈ trees, tree.kind.isToken = true := by
  induction reads with
  | token _ _ ofGap ofToken => exact List.forall_mem_append.mpr ⟨ofGap rfl rfl, ofToken rfl shaped⟩
  | glued =>
      simp only [isShaped, Lexeme.suits, Bool.and_eq_true] at shaped
      exact List.forall_mem_singleton.mpr shaped.1.1
  | gap state fuel =>
      obtain ⟨isGap, _⟩ := gapOf_sound state.markup fuel state.rest
      intro tree member
      obtain ⟨kind, letters, rfl, _⟩ := isGap tree member
      exact (isGap.wellFormed _ member).leafShape.isToken
  | allNil => exact fun tree member => absurd member List.not_mem_nil
  | allCons _ _ ofFirst ofOthers =>
      simp only [Rule.isFlat, isFlat.allFlat, isShaped, isShaped.allShaped, Bool.and_eq_true] at flat shaped
      exact List.forall_mem_append.mpr
        ⟨ofFirst flat.1 shaped.1, ofOthers flat.2 shaped.2⟩
  | any member _ ofRule =>
      exact ofRule ((allFlat_iff _).mp flat _ member) ((allShaped_iff grammar _).mp shaped _ member)
  | manyNil => exact fun tree member => absurd member List.not_mem_nil
  | manyCons _ _ ofFirst ofOthers =>
      exact List.forall_mem_append.mpr ⟨ofFirst flat shaped, ofOthers flat shaped⟩
  | _ => cases flat

/-- A rule that reads one node gives just that, behind a gap. -/
theorem Reads.isSingle (reads : Reads grammar rule state trees next)
    (single : rule.isSingle grammar = true) :
    ∃ gap kind children, IsGap gap ∧ trees = gap ++ [.node none kind children] := by
  cases reads with
  | @ref symbol _ _ _ reads =>
      simp only [Rule.isSingle] at single
      split at single
      next kind rule same =>
        rw [same] at reads
        cases reads with
        | @node _ _ _ _ inner reads =>
            have opens : ∃ letters, rule.opensWith letters = true := by
              rcases Bool.or_eq_true_iff.mp single with opens | opens
              · exact ⟨_, opens⟩
              · exact ⟨_, opens⟩
            obtain ⟨letters, opens⟩ := opens
            obtain ⟨gap, more, isGap, rfl⟩ := reads.opensWith opens
            refine ⟨gap, kind, .leaf none .mark letters :: more, isGap, ?_⟩
            rw [gather, takeWhile_isTrivia isGap rfl, dropWhile_isTrivia isGap rfl]
      next => cases single
  | _ => cases single

theorem Reads.arguments {list : Rule Symbol}
    (reads : Reads grammar (.part .arguments list) state trees next)
    (single : list.isSingle grammar = true) :
    ∃ gap list, trees = gap ++ [list] ∧ list.role? = some .arguments ∧ IsGap gap := by
  cases reads with
  | part _ reads =>
      obtain ⟨gap, kind, children, isGap, rfl⟩ := reads.isSingle single
      exact ⟨gap, .node (some .arguments) kind children, markLast_append .arguments gap _, rfl, isGap⟩

/-- What ends a call is its arguments, with at most an optional chain and gaps in front. -/
theorem Reads.isCallEnd (reads : Reads grammar rule state trees next)
    (ends : rule.isCallEnd grammar = true) :
    ∃ middle list, trees = middle ++ [list] ∧ list.role? = some .arguments ∧
      ∀ tree ∈ middle, BetweenCall tree := by
  unfold Rule.isCallEnd at ends
  split at ends
  next list =>
    obtain ⟨gap, list, rfl, role, isGap⟩ := reads.arguments ends
    exact ⟨gap, list, rfl, role, isGap.betweenCall⟩
  next lexeme list =>
    obtain ⟨chain, _, _, token, others, rfl⟩ := reads.cons_eq
    obtain ⟨arguments, _, _, inner, done, rfl⟩ := others.cons_eq
    obtain ⟨rfl, rfl⟩ := done.nil_eq
    obtain ⟨front, letters, isFront, _, rfl, _⟩ := token.token_eq
    obtain ⟨gap, list, rfl, role, isGap⟩ := inner.arguments ends
    refine ⟨front ++ [.leaf none .optionalChain letters] ++ gap, list, by simp, role, ?_⟩
    refine List.forall_mem_append.mpr ⟨List.forall_mem_append.mpr ⟨isFront.betweenCall, ?_⟩,
      isGap.betweenCall⟩
    rw [List.forall_mem_singleton]
    exact ⟨.optionalChain, letters, rfl, .inr rfl⟩
  next => cases ends

/-- A called token gives a callee, a gap and the arguments. -/
theorem Reads.isCall (reads : Reads grammar rule state trees next)
    (call : rule.isCall grammar = true) :
    ∃ callee middle list, trees.dropWhile Tree.isTrivia = callee :: middle ++ [list] ∧
      callee.role? = some .callee ∧ list.role? = some .arguments ∧
      ∀ tree ∈ middle, BetweenCall tree := by
  unfold Rule.isCall at call
  split at call
  next kind lexeme list =>
    rw [Bool.and_eq_true, Bool.not_eq_true'] at call
    have ends : (Rule.part .arguments list).isCallEnd grammar = true := call.2
    obtain ⟨first, _, _, callee, others, rfl⟩ := reads.cons_eq
    obtain ⟨second, _, _, arguments, done, rfl⟩ := others.cons_eq
    obtain ⟨rfl, rfl⟩ := done.nil_eq
    obtain ⟨gap, list, rfl, role, between⟩ := arguments.isCallEnd ends
    cases callee with
    | part _ token =>
        obtain ⟨front, letters, isFront, _, rfl, _⟩ := token.token_eq
        have solid : (Tree.leaf (some .callee) kind letters).isTrivia = false := call.1
        refine ⟨.leaf (some .callee) kind letters, gap, list, ?_, rfl, role, between⟩
        rw [markLast_append, List.append_nil, List.append_assoc, List.singleton_append]
        exact dropWhile_isTrivia isFront solid (gap ++ [list])
  next => cases call

/-- The children that a node gets have the shape that its kind asks for. -/
theorem Reads.nodeShape (reads : Reads grammar rule state trees next)
    (suits : rule.suits grammar kind = true) (shaped : rule.isShaped grammar = true) :
    NodeShape kind (trees.dropWhile Tree.isTrivia) := by
  simp only [Rule.suits, Bool.and_eq_true, Bool.not_eq_true'] at suits
  obtain ⟨isNode, asked⟩ := suits
  refine ⟨isNode, ?_, ?_, ?_, ?_⟩
  · rintro rfl
    rw [Bool.and_eq_true] at asked
    obtain ⟨gap, more, isGap, rfl⟩ := reads.opensWith asked.1
    obtain ⟨front, same⟩ := reads.closesWith asked.2
    rw [dropWhile_isTrivia isGap rfl]
    rcases List.eq_nil_or_concat more with rfl | ⟨inner, last, rfl⟩
    · have clash := (List.append_inj' same rfl).2
      simp at clash
    · rw [List.concat_eq_append] at same ⊢
      have last_eq : [last] = [.leaf none .mark [')']] := by
        rw [← List.cons_append, ← List.append_assoc] at same
        exact (List.append_inj' same rfl).2
      exact ⟨inner, by rw [last_eq, List.cons_append]⟩
  · rintro rfl tree member
    exact reads.isFlat asked shaped tree
      (List.IsSuffix.mem member (List.dropWhile_suffix _))
  · rintro rfl
    obtain ⟨gap, more, isGap, rfl⟩ := reads.opensWith asked
    exact ⟨more, dropWhile_isTrivia isGap rfl more⟩
  · rintro rfl
    exact reads.isCall asked

/-- What a link makes of an expression has the shape that its kind asks for. -/
theorem Reads.linkShape {role : Option Role} (reads : Reads grammar rule state trees next)
    (acc : Tree) (suits : linkSuits grammar kind role rule = true) :
    NodeShape kind (acc.withRole role :: trees) := by
  simp only [linkSuits, Bool.and_eq_true, Bool.not_eq_true'] at suits
  obtain ⟨isNode, asked⟩ := suits
  refine ⟨isNode, ?_, ?_, ?_, ?_⟩
  · rintro rfl
    exact absurd asked Bool.false_ne_true
  · rintro rfl
    exact absurd asked Bool.false_ne_true
  · rintro rfl
    exact absurd asked Bool.false_ne_true
  · rintro rfl
    have asked : (decide (role = some .callee) && rule.isCallEnd grammar) = true := asked
    rw [Bool.and_eq_true, decide_eq_true_eq] at asked
    obtain ⟨middle, list, rfl, isList, between⟩ := reads.isCallEnd asked.2
    exact ⟨acc.withRole role, middle, list, rfl, by rw [role?_withRole, asked.1], isList, between⟩

/-- Whatever a rule reads is sound, if the rules of the grammar pass the check. -/
theorem Reads.sound (checked : ∀ symbol, (grammar symbol).isShaped grammar = true)
    (reads : Reads grammar rule state trees next) (shaped : rule.isShaped grammar = true) :
    Sound state trees next := by
  induction reads with
  | token _ _ ofGap ofToken => exact (ofGap rfl).append (ofToken shaped)
  | glued taken =>
      refine ⟨?_, List.forall_mem_singleton.mpr ?_⟩
      · rw [textOfAll_cons, text_leaf, textOfAll_nil, List.append_nil, List.take_append_drop]
      · exact .leaf (Lexeme.suits_leafShape shaped ⟨_, _, taken, rfl⟩)
  | gap state fuel =>
      obtain ⟨isGap, kept⟩ := gapOf_sound state.markup fuel state.rest
      exact ⟨kept, isGap.wellFormed⟩
  | implied _ ofGap =>
      obtain ⟨kept, wellFormed⟩ := ofGap rfl
      exact ⟨kept, wellFormed⟩
  | written _ ofToken =>
      obtain ⟨kept, wellFormed⟩ := ofToken rfl
      exact ⟨kept, wellFormed⟩
  | unbroken => exact .empty rfl
  | @ref symbol _ _ _ _ ofSymbol => exact ofSymbol (checked symbol)
  | allNil => exact .empty rfl
  | allCons _ _ ofFirst ofOthers =>
      obtain ⟨first, others⟩ := Bool.and_eq_true_iff.mp shaped
      exact (ofFirst first).append (ofOthers others)
  | any member _ ofRule => exact ofRule ((allShaped_iff grammar _).mp shaped _ member)
  | manyNil => exact .empty rfl
  | manyCons _ _ ofFirst ofOthers => exact (ofFirst shaped).append (ofOthers shaped)
  | node kind reads ofRule =>
      obtain ⟨shaped, suits⟩ := Bool.and_eq_true_iff.mp shaped
      exact (ofRule shaped).gather (reads.nodeShape suits shaped)
  | part role _ ofRule => exact (ofRule shaped).markLast role
  | only _ _ ofRule => exact ofRule shaped
  | chain _ _ ofBase => exact ofBase (Bool.and_eq_true_iff.mp shaped).1
  | link member _ behind ofBefore ofRest =>
      obtain ⟨rest, suits⟩ := (linksShaped_iff grammar _).mp (Bool.and_eq_true_iff.mp shaped).2 _ member
      exact (ofBefore shaped).link (ofRest rest) (behind.linkShape _ suits)
  | «unless» => exact .empty rfl
  | commit _ ofRule => exact ofRule shaped
  | within _ ofRule =>
      obtain ⟨kept, wellFormed⟩ := ofRule shaped
      exact ⟨kept, wellFormed⟩
  | endExpression => exact .empty rfl
  | reopen => exact .empty rfl

end Rule

/-- The tree of a script is a well-formed program and keeps the whole source. -/
theorem parse?_sound {source : Text} {tree : Tree} (parsed : parse? source = some tree) :
    tree.text = source ∧ tree.WellFormed ∧ ∃ statements, tree = .node none .program statements := by
  unfold parse? at parsed
  split at parsed
  next trees markup semicolons afterExpression found =>
    cases parsed
    have sound := (Rule.reads_of_read found).sound grammar_isShaped script_isShaped
    refine ⟨?_, .node ⟨rfl, nofun, nofun, nofun, nofun⟩ sound.2, trees, rfl⟩
    simpa using sound.1
  next => cases parsed

end ImportMeter.Script
