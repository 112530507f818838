/-
This file takes the reading of a statement apart: first the white space and the comments in front of
it, then a node that begins where they end.
-/
import ImportMeter.Proofs.Script.Gap

namespace ImportMeter.Script

open ImportMeter.Script.Tree

/-- True if trees do not begin with white space or a comment. -/
def StartsSolid (trees : List Tree) : Prop :=
  ∀ tree, trees.head? = some tree → tree.isTrivia = false

namespace StartsSolid

variable {trees first second : List Tree}

theorem nil : StartsSolid [] := nofun

theorem cons {tree : Tree} (solid : tree.isTrivia = false) : StartsSolid (tree :: trees) :=
  fun _ same => Option.some.inj same ▸ solid

theorem append (firstSolid : StartsSolid first) (secondSolid : first = [] → StartsSolid second) :
    StartsSolid (first ++ second) := by
  cases first with
  | nil => exact secondSolid rfl
  | cons tree first => exact cons (firstSolid tree rfl)

theorem takeWhile (solid : StartsSolid trees) : trees.takeWhile Tree.isTrivia = [] := by
  cases trees with
  | nil => rfl
  | cons tree trees => exact List.takeWhile_cons_of_neg (by simp [solid tree rfl])

theorem dropWhile (solid : StartsSolid trees) : trees.dropWhile Tree.isTrivia = trees := by
  cases trees with
  | nil => rfl
  | cons tree trees => exact List.dropWhile_cons_of_neg (by simp [solid tree rfl])

theorem gather (solid : StartsSolid trees) (kind : Kind) :
    gather kind trees = [.node none kind trees] := by
  rw [Tree.gather, solid.takeWhile, solid.dropWhile, List.nil_append]

theorem markLast (solid : StartsSolid trees) (role : Role) : StartsSolid (markLast role trees) := by
  cases trees with
  | nil => exact nil
  | cons tree trees =>
      have kept := solid tree rfl
      cases trees with
      | nil => cases tree <;> exact cons kept
      | cons => exact cons kept

end StartsSolid

theorem isTrivia_of_isToken {kind : Kind} (isNode : kind.isToken = false) :
    kind.isTrivia = false := by
  revert isNode
  cases kind <;> decide

namespace Rule

variable {Symbol : Type} {grammar : Symbol → Rule Symbol} {rank : Symbol → Nat}
  {rule : Rule Symbol} {trees : List Tree} {state next : State}

/-- A grammar whose rules build well-formed trees and come back to themselves only behind a character. -/
structure Checked (grammar : Symbol → Rule Symbol) (rank : Symbol → Nat) : Prop where
  isShaped : ∀ symbol, (grammar symbol).isShaped grammar = true
  grounded : Grounded grammar rank

/-- A rule that reads nothing leaves the text as it is. -/
theorem Reads.isSolid (checked : Checked grammar rank) (reads : Reads grammar rule state trees next)
    (shaped : rule.isShaped grammar = true) (solid : IsSolid state.rest) (empty : trees = []) :
    IsSolid next.rest := by
  have kept := (reads.sound checked.isShaped shaped).1
  rw [empty] at kept
  rwa [← kept] at solid

/-- What is read where no gap stands does not begin with one. -/
theorem Reads.startsSolid (checked : Checked grammar rank) (reads : Reads grammar rule state trees next)
    (shaped : rule.isShaped grammar = true) (shallow : rule.isShallow rank = true)
    (solid : IsSolid state.rest) : StartsSolid trees := by
  induction reads with
  | token before _ ofGap ofToken =>
      exact (ofGap rfl rfl solid).append fun empty =>
        ofToken shaped shallow (before.isSolid checked rfl solid empty)
  | glued =>
      exact .cons (Bool.not_eq_eq_eq_not.mp (Bool.and_eq_true_iff.mp shallow).1)
  | gap state fuel =>
      rw [solid.gapOf]
      exact .nil
  | implied _ ofGap => exact ofGap rfl rfl solid
  | written _ ofToken => exact ofToken rfl rfl solid
  | unbroken => exact .nil
  | @ref symbol _ _ _ _ ofSymbol =>
      exact ofSymbol (checked.isShaped symbol) (checked.grounded.isShallow symbol) solid
  | allNil => exact .nil
  | allCons reads _ ofFirst ofOthers =>
      simp only [isShaped, isShaped.allShaped, isShallow, isShallow.allShallow,
        Bool.and_eq_true] at shaped shallow ofOthers
      exact (ofFirst shaped.1 shallow.1.1 solid).append fun empty =>
        ofOthers shaped.2 shallow.2 (reads.isSolid checked shaped.1 solid empty)
  | any member _ ofRule =>
      exact ofRule ((allShaped_iff grammar _).mp shaped _ member)
        ((allShallow_iff _).mp shallow _ member).1 solid
  | manyNil => exact .nil
  | manyCons reads _ ofFirst ofOthers =>
      obtain ⟨first, _⟩ := Bool.and_eq_true_iff.mp shallow
      exact (ofFirst shaped first solid).append fun empty =>
        ofOthers shaped shallow (reads.isSolid checked shaped solid empty)
  | node kind reads ofRule =>
      obtain ⟨shaped, suits⟩ := Bool.and_eq_true_iff.mp shaped
      have isNode := (reads.nodeShape suits shaped).isNode
      rw [(ofRule shaped shallow solid).gather]
      exact .cons (isTrivia_of_isToken isNode)
  | part role _ ofRule => exact (ofRule shaped shallow solid).markLast role
  | only _ _ ofRule => exact ofRule shaped shallow solid
  | chain _ _ ofBase =>
      simp only [isShaped, isShallow, Bool.and_eq_true] at shaped shallow
      exact ofBase shaped.1 shallow.1.1 solid
  | @link _ _ _ _ _ _ gap _ _ member _ _ ofBefore =>
      have suits := ((linksShaped_iff grammar _).mp (Bool.and_eq_true_iff.mp shaped).2 _ member).2
      have isNode := Bool.not_eq_eq_eq_not.mp (Bool.and_eq_true_iff.mp suits).1
      have before := ofBefore shaped shallow solid
      cases gap with
      | nil => exact .cons (isTrivia_of_isToken isNode)
      | cons tree gap => exact .cons (before tree rfl)
  | «unless» => exact .nil
  | commit _ ofRule => exact ofRule shaped shallow solid
  | within _ ofRule => exact ofRule shaped shallow solid
  | endExpression => exact .nil
  | reopen => exact .nil

/-- True if what a rule reads begins with a node, no gap in front of it, provided that it does so for
some symbols. -/
def givesNode (given : Symbol → Bool) : Rule Symbol → Bool
  | .node _ _ => true
  | .ref symbol => given symbol
  | .all (rule :: _) => givesNode given rule
  | .any rules => eachGivesNode rules
  | _ => false
where
  eachGivesNode : List (Rule Symbol) → Bool
    | [] => true
    | rule :: rules => givesNode given rule && eachGivesNode rules

theorem givesNode_of_mem {given : Symbol → Bool} {rules : List (Rule Symbol)}
    (every : givesNode.eachGivesNode given rules = true) (member : rule ∈ rules) :
    rule.givesNode given = true := by
  induction rules with
  | nil => cases member
  | cons first rules inductionHypothesis =>
      rw [givesNode.eachGivesNode, Bool.and_eq_true] at every
      rcases List.mem_cons.mp member with rfl | inRest
      · exact every.1
      · exact inductionHypothesis every.2 inRest

theorem Reads.givesNode (checked : Checked grammar rank) {given : Symbol → Bool}
    (gives : ∀ symbol, given symbol = true → (grammar symbol).givesNode given = true)
    (reads : Reads grammar rule state trees next) (ruleGives : rule.givesNode given = true)
    (shaped : rule.isShaped grammar = true) (shallow : rule.isShallow rank = true)
    (solid : IsSolid state.rest) :
    ∃ kind children others, trees = .node none kind children :: others := by
  induction reads with
  | node kind reads =>
      have startsSolid := reads.startsSolid checked (Bool.and_eq_true_iff.mp shaped).1 shallow solid
      rw [startsSolid.gather]
      exact ⟨kind, _, [], rfl⟩
  | @ref symbol _ _ _ _ ofSymbol =>
      exact ofSymbol (gives symbol ruleGives) (checked.isShaped symbol)
        (checked.grounded.isShallow symbol) solid
  | @allCons _ _ _ _ _ _ others _ _ ofFirst =>
      have shaped := (allShaped_iff grammar _).mp shaped _ List.mem_cons_self
      have shallow := ((allShallow_iff _).mp shallow _ List.mem_cons_self).1
      obtain ⟨kind, children, more, rfl⟩ := ofFirst ruleGives shaped shallow solid
      exact ⟨kind, children, more ++ others, rfl⟩
  | any member _ ofRule =>
      exact ofRule (givesNode_of_mem ruleGives member) ((allShaped_iff grammar _).mp shaped _ member)
        ((allShallow_iff _).mp shallow _ member).1 solid
  | _ => cases ruleGives

end Rule

/-! ### Statements of scripts -/

theorem grammar_checked : Rule.Checked grammar rank := ⟨grammar_isShaped, grammar_grounded⟩

/-- What a statement may be, behind the gap in front of it. -/
def statementChoice : Phrase :=
  match Phrase.statement with
  | .within _ (.all [_, choice]) => choice
  | _ => .any []

theorem grammar_statement :
    grammar .statement = .within true (.all [.gap, statementChoice]) := rfl

/-- The symbols of statements. -/
def isStatement : Symbol → Bool
  | .block | .importDeclaration | .exportDeclaration | .declaration | .lexicalDeclaration
  | .variableDeclaration | .ifStatement | .switchStatement | .forInStatement | .forStatement
  | .whileStatement | .doStatement | .tryStatement | .withStatement | .jumpStatement
  | .labeledStatement | .expressionStatement => true
  | _ => false

theorem givesNode_of_isStatement (symbol : Symbol) (given : isStatement symbol = true) :
    (grammar symbol).givesNode isStatement = true := by
  cases symbol <;> first | rfl | cases given

theorem givesNode_statementChoice : statementChoice.givesNode isStatement = true := rfl

/-- A statement begins with a node. -/
theorem read_statementChoice {fuel : Nat} {trees : List Tree} {state next : State}
    (solid : IsSolid state.rest)
    (found : Rule.read grammar fuel statementChoice state = .read trees next) :
    ∃ kind children others, trees = .node none kind children :: others :=
  (Rule.reads_of_read found).givesNode grammar_checked givesNode_of_isStatement
    givesNode_statementChoice (by decide +kernel) (by decide +kernel) solid

/-- What has been read behind something else. -/
def Outcome.behind (gap : List Tree) (semicolons : Bool) : Outcome → Outcome
  | .read trees next => .read (gap ++ trees) { next with semicolons := semicolons }
  | outcome => outcome

/-- A statement is read behind the gap in front of it. -/
theorem read_statement (fuel : Nat) (state : State) :
    Rule.read grammar (fuel + 4) (.ref .statement) state =
      (Rule.read grammar (fuel + 1) statementChoice
        ⟨(gapOf state.markup fuel state.rest).2, state.markup, true, state.afterExpression⟩).behind
        (gapOf state.markup fuel state.rest).1 state.semicolons := by
  have unfolded : Rule.read grammar (fuel + 4) (.ref .statement) state =
      match Rule.readAll (Rule.read grammar (fuel + 1)) [] [.gap, statementChoice]
        { state with semicolons := true } with
      | .read trees next => .read trees { next with semicolons := state.semicolons }
      | outcome => outcome := by
    rewrite [Rule.read, grammar_statement, Rule.read, Rule.read]
    rfl
  rw [unfolded, Rule.readAll, Rule.read]
  generalize gapOf state.markup fuel state.rest = gap
  simp only [Rule.readAll, List.nil_append]
  cases Rule.read grammar (fuel + 1) statementChoice _ <;> rfl

/-! ### Scripts -/

variable {fuel : Nat} {text rest : Text} {gap trees : List Tree}

theorem read_statement_shortens {state next : State}
    (found : Rule.read grammar fuel (.ref .statement) state = .read trees next) :
    next.rest.length < state.rest.length := by
  have shallow : (Rule.ref Symbol.statement).isShallow rank = true := rfl
  exact (Rule.read_shortens grammar_grounded shallow found).2 rfl

/-- There are fewer statements than characters. -/
theorem readMany_statement_stable {depth : Nat} {state : State} (enough : state.rest.length < fuel) :
    Rule.readMany (Rule.read grammar depth (.ref .statement)) fuel state =
      Rule.readMany (Rule.read grammar depth (.ref .statement)) (fuel + 1) state := by
  induction fuel generalizing state with
  | zero => exact absurd enough (Nat.not_lt_zero _)
  | succ fuel inductionHypothesis =>
      rw [Rule.readMany, Rule.readMany]
      cases found : Rule.read grammar depth (.ref .statement) state with
      | missed => rfl
      | refused => rfl
      | read trees next =>
          have shorter := read_statement_shortens found
          cases trees with
          | nil => rfl
          | cons =>
              have behind : Rule.readMany (Rule.read grammar depth (.ref .statement)) fuel next =
                  Rule.readMany (Rule.read grammar depth (.ref .statement)) (fuel + 1) next :=
                inductionHypothesis (by omega)
              simp only [behind]

/-- What has been read to the end of the text, with the gap there. -/
def Outcome.toEnd (fuel : Nat) : Outcome → Option (List Tree)
  | .read trees next =>
    if (gapOf next.markup fuel next.rest).2 = [] then
      some (trees ++ (gapOf next.markup fuel next.rest).1)
    else none
  | _ => none

/-- The statements of a text and the white space and the comments around them. -/
def statementsOf (fuel : Nat) (text : Text) : Option (List Tree) :=
  (Rule.readMany (Rule.read grammar fuel (.ref .statement)) fuel ⟨text, true, true, false⟩).toEnd fuel

/-- The line for the system that a text begins with, and what follows it. -/
def hashBangOf (text : Text) : List Tree × Text :=
  let (gap, rest) := gapOf true (text.length + 1) text
  match Lexeme.hashBang.length? rest with
  | some length => (gap ++ [.leaf none .hashBangLine (rest.take length)], rest.drop length)
  | none => ([], text)

theorem read_hashBang (enough : text.length < fuel) :
    ∃ marked, Rule.read grammar (fuel + 2) (Phrase.optional (.token .hashBangLine .hashBang))
        ⟨text, true, true, false⟩ =
      .read (hashBangOf text).1 ⟨(hashBangOf text).2, marked, true, false⟩ := by
  have gap : gapOf true (text.length + 1) text = gapOf true fuel text :=
    gapOf_deeper (Nat.lt_succ_self _) enough
  rw [hashBangOf, gap, Phrase.optional, Rule.read, Rule.readAny, Rule.read]
  simp only [Rule.readToken]
  cases Lexeme.hashBang.length? (gapOf true fuel text).2 with
  | some length => exact ⟨_, rfl⟩
  | none => exact ⟨_, rfl⟩

/-- A script is read as its statements behind the line for the system. -/
theorem parse?_eq {source : Text} (enough : depthBound source.length ≤ fuel) :
    parse? source = (statementsOf fuel (hashBangOf source).2).map fun statements =>
      .node none .program ((hashBangOf source).1 ++ statements) := by
  have long : source.length + 1 < fuel := by
    rw [depthBound] at enough
    omega
  obtain ⟨less, rfl⟩ : ∃ less, fuel = less + 1 := Nat.exists_eq_succ_of_ne_zero (by omega)
  have short : source.length < less := by omega
  obtain ⟨marked, hashBang⟩ := read_hashBang short
  have reopened : ∀ state, Rule.read grammar (less + 2) .reopen state =
      .read [] { state with markup := true } := fun _ => rfl
  have many : ∀ state, Rule.read grammar (less + 2) (.many (.ref .statement)) state =
      Rule.readMany (Rule.read grammar (less + 1) (.ref .statement)) (less + 1) state := fun _ => rfl
  have gap : ∀ state, Rule.read grammar (less + 2) .gap state =
      .read (gapOf state.markup (less + 1) state.rest).1
        { state with rest := (gapOf state.markup (less + 1) state.rest).2 } := fun _ => rfl
  have deep : depthBound source.length ≤ less + 3 := by omega
  rw [parse?_of_depth deep, script, Rule.read, statementsOf]
  generalize hashBangOf source = front at hashBang ⊢
  simp only [Rule.readAll, hashBang, reopened, many, gap, List.nil_append, List.append_nil]
  cases Rule.readMany (Rule.read grammar (less + 1) (.ref .statement)) (less + 1)
    ⟨front.2, true, true, false⟩ with
  | missed => rfl
  | refused => rfl
  | read trees next =>
      simp only [Outcome.toEnd]
      split
      next empty =>
        rw [empty, Option.map_some, List.append_assoc]
        rfl
      next filled =>
        rw [Option.map_none]
        obtain ⟨letter, others, left⟩ := List.exists_cons_of_ne_nil filled
        rw [left]
        rfl

/-- A statement that is led by white space and comments is read behind them. -/
theorem read_statement_leads (leads : Leads gap rest text) (enough : text.length < fuel) :
    Rule.read grammar (fuel + 4) (.ref .statement) ⟨text, true, true, false⟩ =
      (Rule.read grammar (fuel + 4) (.ref .statement) ⟨rest, true, true, false⟩).behind gap true := by
  rw [read_statement, read_statement, leads.gapOf_eq enough]
  cases Rule.read grammar (fuel + 1) statementChoice
      ⟨(gapOf true fuel rest).2, true, true, false⟩ with
  | read more last => simp only [Outcome.behind, List.append_assoc]
  | missed => rfl
  | refused => rfl

/-- A statement is not empty. -/
theorem read_statement_ne_nil {state next : State} (markup : state.markup = true)
    (enough : state.rest.length < fuel)
    (found : Rule.read grammar (fuel + 4) (.ref .statement) state = .read trees next) :
    trees ≠ [] ∧ next.semicolons = state.semicolons := by
  have solid : IsSolid (gapOf state.markup fuel state.rest).2 := by
    rw [markup]
    exact isSolid_gapOf enough
  rw [read_statement] at found
  cases read : Rule.read grammar (fuel + 1) statementChoice
      ⟨(gapOf state.markup fuel state.rest).2, state.markup, true, state.afterExpression⟩ with
  | read more last =>
      obtain ⟨kind, children, others, rfl⟩ := read_statementChoice solid read
      rw [read] at found
      cases found
      exact ⟨by simp, rfl⟩
  | missed =>
      rw [read] at found
      cases found
  | refused =>
      rw [read] at found
      cases found

/-- The statements of a text come behind the white space and the comments that lead it. -/
theorem statementsOf_leads (leads : Leads gap rest text) (enough : text.length + 4 < fuel) :
    statementsOf fuel text = (statementsOf fuel rest).map (gap ++ ·) := by
  have whole := congrArg List.length leads.textOfAll_append
  rw [List.length_append] at whole
  obtain ⟨less, rfl⟩ : ∃ less, fuel = less + 4 := ⟨fuel - 4, by omega⟩
  rw [statementsOf, statementsOf, Rule.readMany, Rule.readMany,
    read_statement_leads leads (by omega)]
  have deep : text.length < less + 4 := by omega
  cases found : Rule.read grammar (less + 4) (.ref .statement) ⟨rest, true, true, false⟩ with
  | refused => rfl
  | missed =>
      simp only [Outcome.behind, Outcome.toEnd, leads.gapOf_eq deep, List.nil_append]
      split <;> rfl
  | read trees next =>
      obtain ⟨filled, semicolons⟩ := read_statement_ne_nil rfl (by simp only; omega) found
      have same : { next with semicolons := true } = next :=
        congrArg (State.mk next.rest next.markup · next.afterExpression) semicolons.symm
      obtain ⟨tree, others, rfl⟩ := List.exists_cons_of_ne_nil filled
      obtain ⟨head, rest, joined⟩ : ∃ head rest, gap ++ tree :: others = head :: rest :=
        List.exists_cons_of_ne_nil (by simp)
      simp only [Outcome.behind, joined, same]
      cases Rule.readMany (Rule.read grammar (less + 4) (.ref .statement)) (less + 3) next with
      | refused => rfl
      | missed => rfl
      | read more last =>
          simp only [Outcome.toEnd, ← joined, List.append_assoc]
          split <;> rfl

/-- There are no statements in a text without characters. -/
theorem statementsOf_nil (found : statementsOf (fuel + 1) [] = some trees) : trees = [] := by
  rw [statementsOf, Rule.readMany] at found
  cases read : Rule.read grammar (fuel + 1) (.ref .statement) ⟨[], true, true, false⟩ with
  | refused =>
      rw [read] at found
      cases found
  | missed =>
      rw [read] at found
      cases found
      rfl
  | read more next => exact absurd (read_statement_shortens read) (Nat.not_lt_zero _)

/-- Behind all that leads, the statements begin with a comment of markup or a node. -/
theorem head?_statementsOf (stops : ∀ letter, text.head? = some letter → isBlank letter = false)
    (plain : ∀ length, commentLength true text ≠ some (.comment, length))
    (enough : text.length + 4 < fuel) (found : statementsOf fuel text = some trees) {tree : Tree}
    (first : trees.head? = some tree) :
    tree.kind = .htmlComment ∨ ∃ kind children, tree = .node none kind children := by
  obtain ⟨less, rfl⟩ : ∃ less, fuel = less + 4 := ⟨fuel - 4, by omega⟩
  have solid : IsSolid (gapOf true less text).2 := isSolid_gapOf (by omega)
  have markup : ∀ fuel, (gapOf true fuel text).1.head? = some tree → tree.kind = .htmlComment :=
    fun _ => head?_gapOf stops plain
  rw [statementsOf, Rule.readMany, read_statement] at found
  cases read : Rule.read grammar (less + 1) statementChoice
      ⟨(gapOf true less text).2, true, true, false⟩ with
  | refused =>
      simp only [read] at found
      cases found
  | missed =>
      simp only [read, Outcome.behind, Outcome.toEnd, List.nil_append] at found
      split at found <;> cases found
      exact .inl (markup _ first)
  | read more next =>
      obtain ⟨kind, children, others, rfl⟩ := read_statementChoice solid read
      obtain ⟨head, rest, joined⟩ : ∃ head rest,
          (gapOf true less text).1 ++ .node none kind children :: others = head :: rest :=
        List.exists_cons_of_ne_nil (by simp)
      simp only [read, Outcome.behind, joined] at found
      have isHead : tree = head := by
        generalize Rule.readMany (Rule.read grammar (less + 4) (.ref .statement)) (less + 3) _ =
          outcome at found
        cases outcome with
        | refused => cases found
        | missed => cases found
        | read further last =>
            simp only [Outcome.toEnd] at found
            split at found <;> cases found
            exact (Option.some.inj first).symm
      cases gap : (gapOf true less text).1 with
      | nil =>
          rw [gap] at joined
          cases joined
          exact .inr ⟨kind, children, isHead⟩
      | cons comment comments =>
          rw [gap] at joined
          cases joined
          exact .inl (markup less (by rw [gap, isHead, List.head?_cons]))

/-! ### The line for the system -/

theorem length?_hashBang {body next : Text} (inside : '\n' ∉ body)
    (stops : ∀ letter, next.head? = some letter → letter = '\n') :
    Lexeme.hashBang.length? ('#' :: '!' :: (body ++ next)) = some ('#' :: '!' :: body).length := by
  have run : runLength (· ≠ '\n') (body ++ next) = body.length :=
    runLength_append (fun letter member => by
      simpa using fun same : letter = '\n' => inside (same ▸ member))
      fun letter isHead => by simp [stops letter isHead]
  rw [Lexeme.length?, run, Nat.add_comm]
  rfl

theorem exists_hashBang {length : Nat} (found : Lexeme.hashBang.length? text = some length) :
    ∃ body next, text = '#' :: '!' :: (body ++ next) ∧ '\n' ∉ body ∧
      (∀ letter, next.head? = some letter → letter = '\n') ∧
      length = ('#' :: '!' :: body).length := by
  simp only [Lexeme.length?] at found
  split at found
  next rest =>
    obtain ⟨body, next, rfl, inside, stops⟩ := exists_run (· ≠ '\n') rest
    have notInside : '\n' ∉ body := fun member => by simpa using inside _ member
    have stopsThere : ∀ letter, next.head? = some letter → letter = '\n' :=
      fun letter isHead => by simpa using stops letter isHead
    have whole := length?_hashBang notInside stopsThere
    simp only [Lexeme.length?] at whole
    exact ⟨body, next, rfl, notInside, stopsThere, Option.some.inj (found.symm.trans whole)⟩
  next => cases found

/-- A line for the system, and the gap in front of it, at the head of a text. -/
structure HashBang (gap : List Tree) (body rest text : Text) : Prop where
  gapOf_eq : gapOf true (text.length + 1) text = (gap, '#' :: '!' :: (body ++ rest))
  inside : '\n' ∉ body
  stops : ∀ letter, rest.head? = some letter → letter = '\n'

theorem HashBang.hashBangOf_eq {body : Text} (hashBang : HashBang gap body rest text) :
    hashBangOf text = (gap ++ [.leaf none .hashBangLine ('#' :: '!' :: body)], rest) := by
  have taken : ('#' :: '!' :: body ++ rest).take ('#' :: '!' :: body).length =
      '#' :: '!' :: body := List.take_left
  have left : ('#' :: '!' :: body ++ rest).drop ('#' :: '!' :: body).length = rest := List.drop_left
  rw [List.cons_append, List.cons_append] at taken left
  simp only [hashBangOf, hashBang.gapOf_eq, length?_hashBang hashBang.inside hashBang.stops, taken,
    left]

/-- A text begins with a line for the system, or nothing counts as one. -/
theorem hashBangOf_cases (text : Text) :
    hashBangOf text = ([], text) ∨ ∃ gap body rest, HashBang gap body rest text := by
  have sound := (gapOf_sound true (text.length + 1) text).2
  cases gapped : gapOf true (text.length + 1) text with
  | mk gap behind =>
      cases found : Lexeme.hashBang.length? behind with
      | none => exact .inl (by simp only [hashBangOf, gapped, found])
      | some length =>
          obtain ⟨body, rest, rfl, inside, stops, _⟩ := exists_hashBang found
          exact .inr ⟨gap, body, rest, gapped, inside, stops⟩

theorem textOfAll_hashBangOf (text : Text) :
    textOfAll (hashBangOf text).1 ++ (hashBangOf text).2 = text := by
  rcases hashBangOf_cases text with none | ⟨gap, body, rest, hashBang⟩
  · rw [none]
    rfl
  · have kept := (gapOf_sound true (text.length + 1) text).2
    rw [hashBang.gapOf_eq] at kept
    rw [hashBang.hashBangOf_eq, textOfAll_append, ← kept]
    simp

/-- Without comments of markup in front of it, the line for the system stays one whatever lines follow. -/
theorem HashBang.replace {body other : Text} (hashBang : HashBang gap body rest text)
    (plain : ∀ tree ∈ gap, tree.kind ≠ .htmlComment)
    (otherStops : ∀ letter, other.head? = some letter → letter = '\n') :
    HashBang gap body other (textOfAll gap ++ '#' :: '!' :: (body ++ other)) := by
  obtain ⟨trees, behind, leads, noComment⟩ := Leads.exists_leads text
  have solid : ∀ rest, IsSolid ('#' :: rest) := fun _ => isSolid_cons (by decide) (by decide)
  have gapped := hashBang.gapOf_eq
  rw [leads.gapOf_eq (Nat.lt_succ_self _)] at gapped
  have nothing : (gapOf true (text.length + 1) behind).1 = [] := by
    cases left : (gapOf true (text.length + 1) behind).1 with
    | nil => rfl
    | cons tree others =>
        have isMarkup := head?_gapOf leads.stops noComment (by rw [left, List.head?_cons])
        refine absurd isMarkup (plain tree ?_)
        rw [← (Prod.mk.inj gapped).1, left]
        simp
  have whole := (gapOf_sound true (text.length + 1) behind).2
  rw [nothing] at gapped whole
  obtain ⟨same, isBehind⟩ := Prod.mk.inj gapped
  have isBehind : behind = '#' :: '!' :: (body ++ rest) := whole.symm.trans isBehind
  rw [List.append_nil] at same
  subst same isBehind
  have again : Leads trees ('#' :: '!' :: (body ++ other)) _ :=
    leads.replace (.inl (List.cons_ne_nil _ _)) (solid _).stops
  refine ⟨?_, hashBang.inside, otherStops⟩
  rw [again.gapOf_eq (Nat.lt_succ_self _), (solid _).gapOf, List.append_nil]

end ImportMeter.Script
