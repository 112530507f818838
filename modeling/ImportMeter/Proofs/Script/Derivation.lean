/-
This file says which trees a rule derives, apart from how the reader looks for them, and which rules
build the leaves and the nodes of a tree.
-/
import ImportMeter.Proofs.Script.Quoted

namespace ImportMeter.Script

open ImportMeter.Script.Tree

namespace Rule

variable {Symbol : Type} {grammar : Symbol → Rule Symbol} {rule base : Rule Symbol}
  {rules : List (Rule Symbol)} {links : List (Link (Rule Symbol))} {trees : List Tree}
  {kind : Kind} {lexeme : Lexeme} {role : Role} {kinds : List Kind} {state next : State}

/-- The trees that a rule may read, whatever the state. Every choice is free here, and what a rule looks
at without reading it is forgotten. -/
inductive Derives (grammar : Symbol → Rule Symbol) : Rule Symbol → List Tree → Prop where
  | token {kind : Kind} {lexeme : Lexeme} {gap : List Tree} {letters : Text} (isGap : IsGap gap)
      (takes : lexeme.Takes letters) :
      Derives grammar (.token kind lexeme) (gap ++ [.leaf none kind letters])
  | glued {kind : Kind} {lexeme : Lexeme} {letters : Text} (takes : lexeme.Takes letters) :
      Derives grammar (.glued kind lexeme) [.leaf none kind letters]
  | gap {gap : List Tree} (isGap : IsGap gap) : Derives grammar .gap gap
  | implied {gap : List Tree} (isGap : IsGap gap) : Derives grammar .semicolon gap
  | written {gap : List Tree} (isGap : IsGap gap) :
      Derives grammar .semicolon (gap ++ [.leaf none .mark [';']])
  | unbroken (afterExpression : Bool) : Derives grammar (.unbroken afterExpression) []
  | ref {symbol : Symbol} {trees : List Tree} (derives : Derives grammar (grammar symbol) trees) :
      Derives grammar (.ref symbol) trees
  | allNil : Derives grammar (.all []) []
  | allCons {rule : Rule Symbol} {rules : List (Rule Symbol)} {first others : List Tree}
      (derives : Derives grammar rule first) (behind : Derives grammar (.all rules) others) :
      Derives grammar (.all (rule :: rules)) (first ++ others)
  | any {rule : Rule Symbol} {rules : List (Rule Symbol)} {trees : List Tree} (member : rule ∈ rules)
      (derives : Derives grammar rule trees) : Derives grammar (.any rules) trees
  | manyNil (rule : Rule Symbol) : Derives grammar (.many rule) []
  | manyCons {rule : Rule Symbol} {first others : List Tree} (derives : Derives grammar rule first)
      (behind : Derives grammar (.many rule) others) :
      Derives grammar (.many rule) (first ++ others)
  | node (kind : Kind) {rule : Rule Symbol} {trees : List Tree}
      (derives : Derives grammar rule trees) :
      Derives grammar (.node kind rule) (gather kind trees)
  | part (role : Role) {rule : Rule Symbol} {trees : List Tree}
      (derives : Derives grammar rule trees) :
      Derives grammar (.part role rule) (markLast role trees)
  | only (kinds : List Kind) {rule : Rule Symbol} {trees : List Tree}
      (derives : Derives grammar rule trees) : Derives grammar (.only kinds rule) trees
  | chain (links : List (Link (Rule Symbol))) {base : Rule Symbol} {trees : List Tree}
      (derives : Derives grammar base trees) : Derives grammar (.chain base links) trees
  | link {base : Rule Symbol} {links : List (Link (Rule Symbol))} {link : Link (Rule Symbol)}
      {gap more : List Tree} {acc : Tree} (member : link ∈ links)
      (before : Derives grammar (.chain base links) (gap ++ [acc]))
      (behind : Derives grammar link.rest more) :
      Derives grammar (.chain base links)
        (gap ++ [.node none link.kind (acc.withRole link.role :: more)])
  | unless (rule : Rule Symbol) : Derives grammar (.unless rule) []
  | commit {rule : Rule Symbol} {trees : List Tree} (derives : Derives grammar rule trees) :
      Derives grammar (.commit rule) trees
  | within (semicolons : Bool) {rule : Rule Symbol} {trees : List Tree}
      (derives : Derives grammar rule trees) : Derives grammar (.within semicolons rule) trees
  | endExpression : Derives grammar .endExpression []
  | reopen : Derives grammar .reopen []

/-- Whatever a rule reads, it derives. -/
theorem Reads.derives (reads : Reads grammar rule state trees next) : Derives grammar rule trees := by
  induction reads with
  | token before behind =>
      obtain ⟨isGap, _⟩ := before.isGap
      cases behind with
      | glued taken => exact .token isGap ⟨_, _, taken, rfl⟩
  | glued taken => exact .glued ⟨_, _, taken, rfl⟩
  | gap state fuel => exact .gap (gapOf_sound state.markup fuel state.rest).1
  | implied before => exact .implied before.isGap.1
  | written token =>
      obtain ⟨gap, letters, isGap, takes, same, _⟩ := token.token_eq
      obtain rfl := takes_exact takes
      rw [same]
      exact .written isGap
  | unbroken afterExpression => exact .unbroken afterExpression
  | ref _ ofSymbol => exact .ref ofSymbol
  | allNil => exact .allNil
  | allCons _ _ ofFirst ofOthers => exact .allCons ofFirst ofOthers
  | any member _ ofRule => exact .any member ofRule
  | manyNil => exact .manyNil _
  | manyCons _ _ ofFirst ofOthers => exact .manyCons ofFirst ofOthers
  | node kind _ ofRule => exact .node kind ofRule
  | part role _ ofRule => exact .part role ofRule
  | only kinds _ ofRule => exact .only kinds ofRule
  | chain links _ ofBase => exact .chain links ofBase
  | link member _ _ ofBefore ofRest => exact .link member ofBefore ofRest
  | «unless» rule => exact .unless rule
  | commit _ ofRule => exact .commit ofRule
  | within _ ofRule => exact .within _ ofRule
  | endExpression => exact .endExpression
  | reopen => exact .reopen

/-! ### What a derivation is made of -/

theorem derives_token : Derives grammar (.token kind lexeme) trees ↔
    ∃ gap letters, IsGap gap ∧ lexeme.Takes letters ∧ trees = gap ++ [.leaf none kind letters] := by
  constructor
  · intro derives
    cases derives with
    | token isGap takes => exact ⟨_, _, isGap, takes, rfl⟩
  · rintro ⟨gap, letters, isGap, takes, rfl⟩
    exact .token isGap takes

theorem derives_ref {symbol : Symbol} :
    Derives grammar (.ref symbol) trees ↔ Derives grammar (grammar symbol) trees := by
  constructor
  · intro derives
    cases derives with
    | ref derives => exact derives
  · exact .ref

/-- Rules one after the other derive what each of them derives, put together. -/
theorem derives_all : Derives grammar (.all rules) trees ↔
    ∃ parts, List.Forall₂ (Derives grammar) rules parts ∧ trees = parts.flatten := by
  induction rules generalizing trees with
  | nil =>
      constructor
      · intro derives
        cases derives
        exact ⟨[], .nil, rfl⟩
      · rintro ⟨parts, each, rfl⟩
        cases each
        exact .allNil
  | cons rule rules inductionHypothesis =>
      constructor
      · intro derives
        cases derives with
        | allCons derives behind =>
            obtain ⟨parts, each, rfl⟩ := inductionHypothesis.mp behind
            exact ⟨_ :: parts, .cons derives each, List.flatten_cons.symm⟩
      · rintro ⟨parts, each, rfl⟩
        cases each with
        | cons derives others =>
            rw [List.flatten_cons]
            exact .allCons derives (inductionHypothesis.mpr ⟨_, others, rfl⟩)

theorem derives_any : Derives grammar (.any rules) trees ↔
    ∃ rule ∈ rules, Derives grammar rule trees := by
  constructor
  · intro derives
    cases derives with
    | any member derives => exact ⟨_, member, derives⟩
  · rintro ⟨rule, member, derives⟩
    exact .any member derives

theorem derives_node : Derives grammar (.node kind rule) trees ↔
    ∃ inner, Derives grammar rule inner ∧ trees = gather kind inner := by
  constructor
  · intro derives
    cases derives with
    | node _ derives => exact ⟨_, derives, rfl⟩
  · rintro ⟨inner, derives, rfl⟩
    exact .node kind derives

theorem derives_part : Derives grammar (.part role rule) trees ↔
    ∃ inner, Derives grammar rule inner ∧ trees = markLast role inner := by
  constructor
  · intro derives
    cases derives with
    | part _ derives => exact ⟨_, derives, rfl⟩
  · rintro ⟨inner, derives, rfl⟩
    exact .part role derives

theorem derives_within {semicolons : Bool} :
    Derives grammar (.within semicolons rule) trees ↔ Derives grammar rule trees := by
  constructor
  · intro derives
    cases derives with
    | within _ derives => exact derives
  · exact .within semicolons

theorem derives_unless : Derives grammar (.unless rule) trees ↔ trees = [] := by
  constructor
  · intro derives
    cases derives
    rfl
  · rintro rfl
    exact .unless rule

/-- True if something holds of all trees that a rule derives. -/
def Gives (grammar : Symbol → Rule Symbol) (holds : Tree → Prop) (rule : Rule Symbol) : Prop :=
  ∀ trees, Derives grammar rule trees → ∀ tree ∈ trees, holds tree

namespace Gives

variable {holds : Tree → Prop}

theorem token (ofGap : ∀ gap, IsGap gap → ∀ tree ∈ gap, holds tree)
    (ofToken : ∀ letters, lexeme.Takes letters → holds (.leaf none kind letters)) :
    Gives grammar holds (.token kind lexeme) := by
  intro trees derives
  obtain ⟨gap, letters, isGap, takes, rfl⟩ := derives_token.mp derives
  exact List.forall_mem_append.mpr ⟨ofGap gap isGap, List.forall_mem_singleton.mpr (ofToken letters takes)⟩

theorem semicolon (ofGap : ∀ gap, IsGap gap → ∀ tree ∈ gap, holds tree)
    (ofToken : holds (.leaf none .mark [';'])) : Gives grammar holds .semicolon := by
  intro trees derives
  cases derives with
  | implied isGap => exact ofGap trees isGap
  | written isGap =>
      exact List.forall_mem_append.mpr ⟨ofGap _ isGap, List.forall_mem_singleton.mpr ofToken⟩

theorem unbroken (afterExpression : Bool) : Gives grammar holds (.unbroken afterExpression) := by
  intro trees derives
  cases derives
  exact List.forall_mem_nil holds

theorem ref {symbol : Symbol} (gives : Gives grammar holds (grammar symbol)) :
    Gives grammar holds (.ref symbol) :=
  fun trees derives => gives trees (derives_ref.mp derives)

theorem allNil : Gives grammar holds (.all []) := by
  intro trees derives
  cases derives
  exact List.forall_mem_nil holds

theorem allCons (ofFirst : Gives grammar holds rule) (ofOthers : Gives grammar holds (.all rules)) :
    Gives grammar holds (.all (rule :: rules)) := by
  intro trees derives
  cases derives with
  | allCons first others => exact List.forall_mem_append.mpr ⟨ofFirst _ first, ofOthers _ others⟩

theorem anyNil : Gives grammar holds (.any []) := by
  intro trees derives
  obtain ⟨rule, member, _⟩ := derives_any.mp derives
  cases member

theorem anyCons (ofFirst : Gives grammar holds rule) (ofOthers : Gives grammar holds (.any rules)) :
    Gives grammar holds (.any (rule :: rules)) := by
  intro trees derives
  obtain ⟨chosen, member, ofChosen⟩ := derives_any.mp derives
  rcases List.mem_cons.mp member with rfl | later
  · exact ofFirst trees ofChosen
  · exact ofOthers trees (.any later ofChosen)

theorem many (gives : Gives grammar holds rule) : Gives grammar holds (.many rule) := by
  intro trees derives
  generalize isMany : Rule.many rule = whole at derives
  induction derives with
  | manyNil => exact List.forall_mem_nil holds
  | manyCons first _ _ behindHypothesis =>
      cases isMany
      exact List.forall_mem_append.mpr ⟨gives _ first, behindHypothesis rfl⟩
  | _ => cases isMany

end Gives

/-! ### The rules that build a tree -/

/-- The rules in a rule that build leaves and nodes. -/
def builders : Rule Symbol → List (Rule Symbol)
  | .token kind lexeme => [.token kind lexeme]
  | .glued kind lexeme => [.glued kind lexeme]
  | .all rules | .any rules => buildersOfAll rules
  | .many rule | .part _ rule | .only _ rule | .commit rule | .within _ rule => builders rule
  | .node kind rule => .node kind rule :: builders rule
  | .chain base links => .chain base links :: (builders base ++ buildersOfLinks links)
  | _ => []
where
  buildersOfAll : List (Rule Symbol) → List (Rule Symbol)
    | [] => []
    | rule :: rules => builders rule ++ buildersOfAll rules
  buildersOfLinks : List (Link (Rule Symbol)) → List (Rule Symbol)
    | [] => []
    | ⟨_, _, _, rest⟩ :: links => builders rest ++ buildersOfLinks links

/-- True for a rule that builds trees of a kind. -/
def builds (kind : Kind) : Rule Symbol → Bool
  | .token other _ | .glued other _ | .node other _ => other = kind
  | .chain _ links => links.any (·.kind = kind)
  | _ => false

theorem subset_buildersOfAll (member : rule ∈ rules) :
    rule.builders ⊆ builders.buildersOfAll rules := by
  induction rules with
  | nil => cases member
  | cons first rules inductionHypothesis =>
      rw [builders.buildersOfAll]
      rcases List.mem_cons.mp member with rfl | later
      · exact List.subset_append_left _ _
      · exact List.subset_append_of_subset_right _ (inductionHypothesis later)

theorem subset_buildersOfLinks {link : Link (Rule Symbol)} (member : link ∈ links) :
    link.rest.builders ⊆ builders.buildersOfLinks links := by
  induction links with
  | nil => cases member
  | cons first links inductionHypothesis =>
      rw [builders.buildersOfLinks]
      rcases List.mem_cons.mp member with rfl | later
      · exact List.subset_append_left _ _
      · exact List.subset_append_of_subset_right _ (inductionHypothesis later)

/-- True for the trees that some rules build: each leaf is a token of one of the rules, and each node
has the children that one of the rules gives it. -/
inductive BuiltBy (grammar : Symbol → Rule Symbol) (among : Rule Symbol → Prop) : Tree → Prop where
  | trivia (role : Option Role) {kind : Kind} {letters : Text} (shape : GapShape kind letters) :
      BuiltBy grammar among (.leaf role kind letters)
  | semicolon (role : Option Role) : BuiltBy grammar among (.leaf role .mark [';'])
  | token (role : Option Role) {kind : Kind} {lexeme : Lexeme} {letters : Text}
      (isAmong : among (.token kind lexeme) ∨ among (.glued kind lexeme))
      (takes : lexeme.Takes letters) : BuiltBy grammar among (.leaf role kind letters)
  | node (role : Option Role) {kind : Kind} {rule : Rule Symbol} {trees : List Tree}
      (isAmong : among (.node kind rule)) (derives : Derives grammar rule trees)
      (inside : ∀ tree ∈ trees, BuiltBy grammar among tree) :
      BuiltBy grammar among (.node role kind (trees.dropWhile Tree.isTrivia))
  | link (role : Option Role) {base : Rule Symbol} {links : List (Link (Rule Symbol))}
      {link : Link (Rule Symbol)} {acc : Tree} {more : List Tree}
      (isAmong : among (.chain base links)) (member : link ∈ links)
      (before : BuiltBy grammar among acc) (inside : ∀ tree ∈ more, BuiltBy grammar among tree) :
      BuiltBy grammar among (.node role link.kind (acc.withRole link.role :: more))

section

variable {among : Rule Symbol → Prop}

theorem BuiltBy.withRole {tree : Tree} (builtBy : BuiltBy grammar among tree) (role : Option Role) :
    BuiltBy grammar among (tree.withRole role) := by
  cases builtBy with
  | trivia _ shape => exact .trivia role shape
  | semicolon => exact .semicolon role
  | token _ isAmong takes => exact .token role isAmong takes
  | node _ isAmong derives inside => exact .node role isAmong derives inside
  | link _ isAmong member before inside => exact .link role isAmong member before inside

theorem BuiltBy.children {tree : Tree} (builtBy : BuiltBy grammar among tree) :
    ∀ child ∈ tree.children, BuiltBy grammar among child := by
  cases builtBy with
  | trivia | semicolon | token =>
      intro child member
      cases member
  | node _ _ _ inside =>
      exact fun child member => inside child (List.IsSuffix.mem member (List.dropWhile_suffix _))
  | link _ _ _ before inside => exact List.forall_mem_cons.mpr ⟨before.withRole _, inside⟩

theorem builtBy_gap {gap : List Tree} (isGap : IsGap gap) :
    ∀ tree ∈ gap, BuiltBy grammar among tree := by
  intro tree member
  obtain ⟨kind, letters, rfl, shape⟩ := isGap tree member
  exact .trivia none shape

theorem builtBy_markLast (inside : ∀ tree ∈ trees, BuiltBy grammar among tree) :
    ∀ tree ∈ markLast role trees, BuiltBy grammar among tree := by
  rcases List.eq_nil_or_concat trees with rfl | ⟨before, last, rfl⟩
  · exact inside
  · rw [List.concat_eq_append] at inside ⊢
    rw [markLast_append]
    simp only [List.forall_mem_append, List.forall_mem_singleton] at inside ⊢
    exact ⟨inside.1, inside.2.withRole role⟩

/-- What a rule derives is built by the builders in the rule and in the grammar. -/
theorem Derives.builtBy (ofGrammar : ∀ symbol, ∀ rule ∈ (grammar symbol).builders, among rule)
    (derives : Derives grammar rule trees) (ofRule : ∀ other ∈ rule.builders, among other) :
    ∀ tree ∈ trees, BuiltBy grammar among tree := by
  have nothing : ∀ tree ∈ [], BuiltBy grammar among tree :=
    fun tree member => absurd member List.not_mem_nil
  induction derives with
  | token isGap takes =>
      refine List.forall_mem_append.mpr ⟨builtBy_gap isGap, List.forall_mem_singleton.mpr ?_⟩
      exact .token none (.inl (ofRule _ List.mem_cons_self)) takes
  | glued takes =>
      exact List.forall_mem_singleton.mpr
        (.token none (.inr (ofRule _ List.mem_cons_self)) takes)
  | gap isGap | implied isGap => exact builtBy_gap isGap
  | written isGap =>
      exact List.forall_mem_append.mpr
        ⟨builtBy_gap isGap, List.forall_mem_singleton.mpr (.semicolon none)⟩
  | unbroken | allNil | manyNil | «unless» | endExpression | reopen => exact nothing
  | ref _ inductionHypothesis => exact inductionHypothesis (ofGrammar _)
  | allCons _ _ firstHypothesis behindHypothesis =>
      obtain ⟨ofFirst, ofOthers⟩ := List.forall_mem_append.mp ofRule
      exact List.forall_mem_append.mpr ⟨firstHypothesis ofFirst, behindHypothesis ofOthers⟩
  | any member _ inductionHypothesis =>
      exact inductionHypothesis fun other isIn => ofRule other (subset_buildersOfAll member isIn)
  | manyCons _ _ firstHypothesis behindHypothesis =>
      exact List.forall_mem_append.mpr ⟨firstHypothesis ofRule, behindHypothesis ofRule⟩
  | node kind derives inductionHypothesis =>
      obtain ⟨isAmong, ofInner⟩ := List.forall_mem_cons.mp ofRule
      have inside := inductionHypothesis ofInner
      refine List.forall_mem_append.mpr ⟨fun tree member => inside tree ?_, ?_⟩
      · exact List.IsPrefix.mem member (List.takeWhile_prefix _)
      · exact List.forall_mem_singleton.mpr (.node none isAmong derives inside)
  | part role _ inductionHypothesis => exact builtBy_markLast (inductionHypothesis ofRule)
  | only _ _ inductionHypothesis | commit _ inductionHypothesis | within _ _ inductionHypothesis =>
      exact inductionHypothesis ofRule
  | chain links _ inductionHypothesis =>
      exact inductionHypothesis fun other isIn =>
        ofRule other (List.mem_cons_of_mem _ (List.mem_append_left _ isIn))
  | link member before behind beforeHypothesis behindHypothesis =>
      obtain ⟨isAmong, ofParts⟩ := List.forall_mem_cons.mp ofRule
      obtain ⟨ofGap, ofAcc⟩ := List.forall_mem_append.mp (beforeHypothesis ofRule)
      refine List.forall_mem_append.mpr ⟨ofGap, List.forall_mem_singleton.mpr ?_⟩
      refine .link none isAmong member (ofAcc _ (List.mem_singleton_self _)) ?_
      exact behindHypothesis fun other isIn =>
        ofParts other (List.mem_append_right _ (subset_buildersOfLinks member isIn))

end

end Rule

/-- A rule that builds leaves or nodes somewhere in a script. -/
def IsBuilder (rule : Phrase) : Prop :=
  rule ∈ script.builders ∨ ∃ symbol, rule ∈ (grammar symbol).builders

/-- A test that all the builders pass, checked symbol by symbol. -/
theorem IsBuilder.passes {rule : Phrase} (isBuilder : IsBuilder rule) {test : Phrase → Bool}
    (ofScript : script.builders.all test = true)
    (ofGrammar : ∀ symbol, (grammar symbol).builders.all test = true) : test rule = true := by
  rcases isBuilder with isIn | ⟨symbol, isIn⟩
  · exact List.all_eq_true.mp ofScript rule isIn
  · exact List.all_eq_true.mp (ofGrammar symbol) rule isIn

/-- Where only one builder of one symbol builds trees of a kind, all of them are built by it. -/
theorem IsBuilder.eq_of_builds {kind : Kind} {symbol : Symbol} {rule phrase : Phrase} {inner : List Phrase}
    (isBuilder : IsBuilder rule) (builds : rule.builds kind = true)
    (ofScript : script.builders.all (fun rule => !rule.builds kind) = true)
    (ofOthers : ∀ other, other ≠ symbol →
      (grammar other).builders.all (fun rule => !rule.builds kind) = true)
    (ofSymbol : (grammar symbol).builders = phrase :: inner)
    (ofInner : inner.all (fun rule => !rule.builds kind) = true) : rule = phrase := by
  have absent {rules : List Phrase} (none : rules.all (fun rule => !rule.builds kind) = true)
      (isIn : rule ∈ rules) : rule = phrase := by
    have builtNot := List.all_eq_true.mp none rule isIn
    rw [builds] at builtNot
    cases builtNot
  rcases isBuilder with isIn | ⟨other, isIn⟩
  · exact absent ofScript isIn
  · by_cases isSymbol : other = symbol
    · rw [isSymbol, ofSymbol] at isIn
      rcases List.mem_cons.mp isIn with same | inside
      · exact same
      · exact absent ofInner inside
    · exact absent (ofOthers other isSymbol) isIn

/-- The tree of a script is derived by the rule of scripts. -/
theorem parse?_derives {source : Text} {tree : Tree} (parsed : parse? source = some tree) :
    ∃ trees, tree = .node none .program trees ∧ Rule.Derives grammar script trees := by
  unfold parse? at parsed
  split at parsed
  next trees markup semicolons afterExpression found =>
    cases parsed
    exact ⟨trees, rfl, (Rule.reads_of_read found).derives⟩
  next => cases parsed

/-- The trees of a script are built by the builders. -/
theorem parse?_builtBy {source : Text} {tree : Tree} (parsed : parse? source = some tree) :
    ∀ child ∈ tree.children, Rule.BuiltBy grammar IsBuilder child := by
  obtain ⟨trees, rfl, derives⟩ := parse?_derives parsed
  exact derives.builtBy (fun symbol rule isIn => .inr ⟨symbol, isIn⟩) fun other isIn => .inl isIn

end ImportMeter.Script
