/-
This file says what the reader may do when it follows a rule to the end, one step for each kind of rule.
What holds of everything that is read is then proved by induction on these steps, without the reader.
-/
import ImportMeter.Script.Rule

namespace ImportMeter.Script

open ImportMeter.Script.Tree

namespace Rule

variable {Symbol : Type} {grammar : Symbol → Rule Symbol} {rule base : Rule Symbol}
  {rules : List (Rule Symbol)} {links : List (Link (Rule Symbol))} {trees gap : List Tree}
  {state next : State} {fuel depth : Nat}

/-- The trees that a rule reads from one state to another. What it looks at without reading it is
forgotten, except for the end of a repetition, where the rule does not match or reads nothing. -/
inductive Reads (grammar : Symbol → Rule Symbol) :
    Rule Symbol → State → List Tree → State → Prop where
  | token {kind : Kind} {lexeme : Lexeme} {state middle next : State} {gap trees : List Tree}
      (before : Reads grammar .gap state gap middle)
      (behind : Reads grammar (.glued kind lexeme) middle trees next) :
      Reads grammar (.token kind lexeme) state (gap ++ trees) next
  | glued {kind : Kind} {lexeme : Lexeme} {state : State} {length : Nat}
      (taken : lexeme.length? state.rest = some length) :
      Reads grammar (.glued kind lexeme) state [.leaf none kind (state.rest.take length)]
        { state with
          rest := state.rest.drop length
          markup := reopens kind (state.rest.take length)
          afterExpression := false }
  | gap (state : State) (fuel : Nat) :
      Reads grammar .gap state (gapOf state.markup fuel state.rest).1
        { state with rest := (gapOf state.markup fuel state.rest).2 }
  | implied {state next : State} {gap : List Tree}
      (before : Reads grammar .gap { state with markup := false } gap next) :
      Reads grammar .semicolon state gap { next with markup := true, afterExpression := false }
  | written {state next : State} {trees : List Tree}
      (token : Reads grammar (.token .mark (.exact [';'])) { state with markup := false } trees next) :
      Reads grammar .semicolon state trees next
  | unbroken (afterExpression : Bool) (state : State) :
      Reads grammar (.unbroken afterExpression) state [] state
  | ref {symbol : Symbol} {state next : State} {trees : List Tree}
      (reads : Reads grammar (grammar symbol) state trees next) :
      Reads grammar (.ref symbol) state trees next
  | allNil (state : State) : Reads grammar (.all []) state [] state
  | allCons {rule : Rule Symbol} {rules : List (Rule Symbol)} {state middle next : State}
      {first others : List Tree} (reads : Reads grammar rule state first middle)
      (behind : Reads grammar (.all rules) middle others next) :
      Reads grammar (.all (rule :: rules)) state (first ++ others) next
  | any {rule : Rule Symbol} {rules : List (Rule Symbol)} {state next : State} {trees : List Tree}
      (member : rule ∈ rules) (reads : Reads grammar rule state trees next) :
      Reads grammar (.any rules) state trees next
  | manyNil {rule : Rule Symbol} {state : State} {fuel : Nat}
      (stops : read grammar fuel rule state = .missed ∨
        ∃ last, read grammar fuel rule state = .read [] last) :
      Reads grammar (.many rule) state [] state
  | manyCons {rule : Rule Symbol} {state middle next : State} {first others : List Tree}
      (reads : Reads grammar rule state first middle)
      (behind : Reads grammar (.many rule) middle others next) :
      Reads grammar (.many rule) state (first ++ others) next
  | node (kind : Kind) {rule : Rule Symbol} {state next : State} {trees : List Tree}
      (reads : Reads grammar rule state trees next) :
      Reads grammar (.node kind rule) state (gather kind trees) next
  | part (role : Role) {rule : Rule Symbol} {state next : State} {trees : List Tree}
      (reads : Reads grammar rule state trees next) :
      Reads grammar (.part role rule) state (markLast role trees) next
  | only (kinds : List Kind) {rule : Rule Symbol} {state next : State} {trees : List Tree}
      (reads : Reads grammar rule state trees next) :
      Reads grammar (.only kinds rule) state trees next
  | chain (links : List (Link (Rule Symbol))) {base : Rule Symbol} {state next : State}
      {trees : List Tree} (reads : Reads grammar base state trees next) :
      Reads grammar (.chain base links) state trees next
  | link {base : Rule Symbol} {links : List (Link (Rule Symbol))} {link : Link (Rule Symbol)}
      {state middle next : State} {gap more : List Tree} {acc : Tree} (member : link ∈ links)
      (before : Reads grammar (.chain base links) state (gap ++ [acc]) middle)
      (behind : Reads grammar link.rest middle more next) :
      Reads grammar (.chain base links) state
        (gap ++ [.node none link.kind (acc.withRole link.role :: more)]) next
  | unless (rule : Rule Symbol) (state : State) : Reads grammar (.unless rule) state [] state
  | commit {rule : Rule Symbol} {state next : State} {trees : List Tree}
      (reads : Reads grammar rule state trees next) : Reads grammar (.commit rule) state trees next
  | within {semicolons : Bool} {rule : Rule Symbol} {state next : State} {trees : List Tree}
      (reads : Reads grammar rule { state with semicolons := semicolons } trees next) :
      Reads grammar (.within semicolons rule) state trees
        { next with semicolons := state.semicolons }
  | endExpression (state : State) :
      Reads grammar .endExpression state [] { state with markup := false, afterExpression := true }
  | reopen (state : State) : Reads grammar .reopen state [] { state with markup := true }

namespace Reads

theorem nil_eq (reads : Reads grammar (.all []) state trees next) : trees = [] ∧ next = state := by
  cases reads
  exact ⟨rfl, rfl⟩

theorem cons_eq (reads : Reads grammar (.all (rule :: rules)) state trees next) :
    ∃ first middle others, Reads grammar rule state first middle ∧
      Reads grammar (.all rules) middle others next ∧ trees = first ++ others := by
  cases reads with
  | allCons reads behind => exact ⟨_, _, _, reads, behind, rfl⟩

/-- A gap may begin with a comment. -/
theorem comment {first more : List Tree} {rest : Text}
    (comment : commentOf state.markup state.rest = some (first, rest))
    (behind : Reads grammar .gap { state with rest := rest } more next) :
    Reads grammar .gap state (first ++ more) next := by
  cases behind with
  | gap _ fuel =>
      have further : gapOf state.markup (fuel + 1) state.rest =
          (first ++ (gapOf state.markup fuel rest).1, (gapOf state.markup fuel rest).2) := by
        rw [gapOf, comment]
      have whole : Reads grammar .gap state _ _ := .gap state (fuel + 1)
      rwa [further] at whole

end Reads

/-! ### The reader takes these steps -/

theorem reads_of_readToken {kind : Kind} {lexeme : Lexeme} {rest : Text}
    (found : readToken kind lexeme gap rest state = .read trees next) :
    ∃ token, trees = gap ++ token ∧
      Reads grammar (.glued kind lexeme) { state with rest := rest } token next := by
  unfold readToken at found
  split at found
  next length taken =>
    cases found
    exact ⟨_, rfl, .glued taken⟩
  next => cases found

theorem reads_of_readSemicolon (found : readSemicolon gap fuel state = .read trees next) :
    ∃ more, trees = gap ++ more ∧ Reads grammar .semicolon state more next := by
  induction fuel generalizing gap state with
  | zero => cases found
  | succ fuel inductionHypothesis =>
      unfold readSemicolon at found
      split at found
      next =>
        cases found
        have before : Reads grammar .gap { state with markup := false } [] { state with markup := false } :=
          .gap { state with markup := false } 0
        exact ⟨[], (List.append_nil _).symm, (before.implied :)⟩
      next =>
        split at found
        next first rest comment =>
          obtain ⟨more, rfl, behind⟩ := inductionHypothesis found
          refine ⟨first ++ more, List.append_assoc gap first more, ?_⟩
          cases behind with
          | implied before => exact .implied (.comment comment before)
          | written token =>
              cases token with
              | token before behind =>
                  rw [← List.append_assoc]
                  exact .written (.token (.comment comment before) behind)
        next noComment =>
          have before : Reads grammar .gap { state with markup := false } (blanksOf state.rest).1
              { state with markup := false, rest := (blanksOf state.rest).2 } := by
            have blanks : gapOf false 1 state.rest = blanksOf state.rest := by
              rw [gapOf, noComment]
            rw [← blanks]
            exact .gap { state with markup := false } 1
          -- The token takes no notice of whether a markup comment might have begun in front of it.
          have found : readToken .mark (.exact [';']) (gap ++ (blanksOf state.rest).1)
              (blanksOf state.rest).2 { state with markup := false } = .read trees next := found
          obtain ⟨token, rfl, behind⟩ := reads_of_readToken found
          exact ⟨_, List.append_assoc gap _ token, .written (.token before behind)⟩

/-- Of several rules, the one that matched gave the trees. -/
theorem readAny_eq {read : Rule Symbol → State → Outcome}
    (found : readAny read rules state = .read trees next) :
    ∃ rule ∈ rules, read rule state = .read trees next := by
  induction rules with
  | nil => cases found
  | cons rule rules inductionHypothesis =>
      unfold readAny at found
      split at found
      next =>
        obtain ⟨other, member, same⟩ := inductionHypothesis found
        exact ⟨other, List.mem_cons_of_mem rule member, same⟩
      next => exact ⟨rule, List.mem_cons_self, found⟩

theorem readLink_eq {read : Rule Symbol → State → Outcome} {acc : Tree}
    (found : readLink read acc state links = .read trees next) :
    ∃ link ∈ links, ∃ more, read link.rest state = .read more next ∧
      trees = [.node none link.kind (acc.withRole link.role :: more)] := by
  induction links with
  | nil => cases found
  | cons link links inductionHypothesis =>
      have later : readLink read acc state links = .read trees next →
          ∃ other ∈ link :: links, ∃ more, read other.rest state = .read more next ∧
            trees = [.node none other.kind (acc.withRole other.role :: more)] := by
        intro found
        obtain ⟨other, member, more, same⟩ := inductionHypothesis found
        exact ⟨other, List.mem_cons_of_mem link member, more, same⟩
      unfold readLink at found
      split at found
      next =>
        split at found
        next more last same =>
          cases found
          exact ⟨link, List.mem_cons_self, more, same, rfl⟩
        next => exact later found
        next => cases found
      next => exact later found

/-- What the reader reads at a depth, rules read in steps. -/
def FollowsAt (grammar : Symbol → Rule Symbol) (depth : Nat) : Prop :=
  ∀ {rule : Rule Symbol} {state next : State} {trees : List Tree},
    read grammar depth rule state = .read trees next → Reads grammar rule state trees next

theorem reads_of_readAll (follows : FollowsAt grammar depth) {before : List Tree}
    (found : readAll (read grammar depth) before rules state = .read trees next) :
    ∃ more, trees = before ++ more ∧ Reads grammar (.all rules) state more next := by
  induction rules generalizing before state with
  | nil =>
      cases found
      exact ⟨[], (List.append_nil _).symm, .allNil next⟩
  | cons rule rules inductionHypothesis =>
      unfold readAll at found
      split at found
      next first middle same =>
        obtain ⟨more, rfl, behind⟩ := inductionHypothesis found
        exact ⟨first ++ more, List.append_assoc before first more, .allCons (follows same) behind⟩
      next => cases found
      next => cases found

theorem reads_of_readMany (follows : FollowsAt grammar depth)
    (found : readMany (read grammar depth rule) fuel state = .read trees next) :
    Reads grammar (.many rule) state trees next := by
  induction fuel generalizing trees state with
  | zero => cases found
  | succ fuel inductionHypothesis =>
      unfold readMany at found
      split at found
      next last same =>
        cases found
        exact .manyNil (.inr ⟨last, same⟩)
      next same =>
        cases found
        exact .manyNil (.inl same)
      next first middle notEmpty same =>
        split at found
        next more last others =>
          cases found
          exact .manyCons (follows same) (inductionHypothesis others)
        next outcome other => exact absurd found (other trees next)
      next => cases found

theorem reads_of_readLinks (follows : FollowsAt grammar depth) {start : State} {acc : Tree}
    (before : Reads grammar (.chain base links) start (gap ++ [acc]) state)
    (found : readLinks (read grammar depth) links gap fuel acc state = .read trees next) :
    Reads grammar (.chain base links) start trees next := by
  induction fuel generalizing acc state with
  | zero => cases found
  | succ fuel inductionHypothesis =>
      unfold readLinks at found
      split at found
      next longer middle one =>
        obtain ⟨link, member, more, same, isLonger⟩ := readLink_eq one
        obtain rfl := List.singleton_inj.mp isLonger
        exact inductionHypothesis (.link member before (follows same)) found
      next => cases found
      next =>
        cases found
        exact before

/-- Whatever the reader reads, the rule reads in these steps. -/
theorem reads_of_read (found : read grammar fuel rule state = .read trees next) :
    Reads grammar rule state trees next := by
  induction fuel generalizing rule state next trees with
  | zero => cases found
  | succ fuel inductionHypothesis =>
      have follows : FollowsAt grammar fuel := inductionHypothesis
      cases rule with
      | token kind lexeme =>
          obtain ⟨token, rfl, behind⟩ := reads_of_readToken found
          exact .token (.gap state fuel) behind
      | glued kind lexeme =>
          obtain ⟨token, rfl, behind⟩ := reads_of_readToken found
          exact behind
      | gap =>
          cases found
          exact .gap state fuel
      | semicolon =>
          obtain ⟨more, rfl, reads⟩ := reads_of_readSemicolon found
          exact reads
      | unbroken afterExpression =>
          simp only [read] at found
          split at found
          next => cases found; exact .unbroken afterExpression state
          next => cases found
      | ref symbol => exact .ref (follows found)
      | all rules =>
          obtain ⟨more, rfl, reads⟩ := reads_of_readAll follows found
          exact reads
      | any rules =>
          obtain ⟨rule, member, same⟩ := readAny_eq found
          exact .any member (follows same)
      | many rule => exact reads_of_readMany follows found
      | node kind rule =>
          simp only [read] at found
          split at found
          next inner last inside => cases found; exact .node kind (follows inside)
          next other => exact absurd found (other trees next)
      | part role rule =>
          simp only [read] at found
          split at found
          next inner last inside => cases found; exact .part role (follows inside)
          next other => exact absurd found (other trees next)
      | only kinds rule =>
          simp only [read] at found
          split at found
          next inner last inside =>
            split at found
            next => cases found; exact .only kinds (follows inside)
            next => cases found
          next other => exact absurd found (other trees next)
      | chain base links =>
          simp only [read] at found
          split at found
          next inner last inside =>
            have before : Reads grammar (.chain base links) state inner last :=
              .chain links (follows inside)
            split at found
            next acc one =>
              rw [← List.takeWhile_append_dropWhile (p := Tree.isTrivia) (l := inner), one] at before
              exact reads_of_readLinks follows before found
            next =>
              cases found
              exact before
          next other => exact absurd found (other trees next)
      | «unless» rule =>
          simp only [read] at found
          split at found
          next => cases found
          next => cases found; exact .unless rule state
      | commit rule =>
          simp only [read] at found
          split at found
          next => cases found
          next => exact .commit (follows found)
      | within semicolons rule =>
          simp only [read] at found
          split at found
          next inner last inside => cases found; exact .within (follows inside)
          next other => exact absurd found (other trees next)
      | endExpression =>
          cases found
          exact .endExpression state
      | reopen =>
          cases found
          exact .reopen state

end Rule

end ImportMeter.Script
