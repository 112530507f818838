/-
This file defines grammar rules as data and the reader that follows them. A rule is an ordered
choice wherever it is a choice, and what a rule reads is kept whole in the trees it gives.
-/
import ImportMeter.Script.Gap

namespace ImportMeter.Script

/-- One way in which an expression that has been read may go on. -/
structure Link (Rule : Type) where
  /-- The kinds that may go on in this way; every kind if the list is empty. -/
  from_ : List Kind
  /-- The part that the expression plays in the longer one. -/
  role : Option Role
  /-- The kind of the longer expression. -/
  kind : Kind
  rest : Rule

/-- A rule over the nonterminal symbols `Symbol`. -/
inductive Rule (Symbol : Type) where
  /-- A token, after any white space and comments. -/
  | token (kind : Kind) (lexeme : Lexeme)
  /-- A token right behind what was read before. -/
  | glued (kind : Kind) (lexeme : Lexeme)
  /-- White space and comments. -/
  | gap
  /-- A semicolon, written or implied. -/
  | semicolon
  /-- Succeeds where no semicolon is implied before the next token. -/
  | unbroken (afterExpression : Bool)
  | ref (symbol : Symbol)
  | all (rules : List (Rule Symbol))
  | any (rules : List (Rule Symbol))
  | many (rule : Rule Symbol)
  | node (kind : Kind) (rule : Rule Symbol)
  | part (role : Role) (rule : Rule Symbol)
  /-- A rule whose last tree is of one of some kinds. -/
  | only (kinds : List Kind) (rule : Rule Symbol)
  /-- A phrase and the ways in which it may go on, each as often as it matches. -/
  | chain (base : Rule Symbol) (links : List (Link (Rule Symbol)))
  /-- Succeeds without reading if the rule would not match. -/
  | unless (rule : Rule Symbol)
  /-- A rule for which there is no alternative: if it fails, the whole reading fails. -/
  | commit (rule : Rule Symbol)
  /-- A rule inside which semicolons may or may not be implied. -/
  | within (semicolons : Bool) (rule : Rule Symbol)
  /-- Marks the end of a complete expression. -/
  | endExpression
  /-- Markup comments may begin in the next gap. -/
  | reopen

/-- Where a reader is. -/
structure State where
  rest : Text
  /-- Markup comments may begin in the next gap. -/
  markup : Bool
  /-- A semicolon may be implied here. -/
  semicolons : Bool
  /-- A complete expression has just ended. -/
  afterExpression : Bool

/-- What comes of following a rule. -/
inductive Outcome where
  | read (trees : List Tree) (state : State)
  /-- The rule does not match; an alternative may. -/
  | missed
  /-- The text is not a script, whatever the alternatives. -/
  | refused

namespace Rule

variable {Symbol : Type}

/-- No markup comment begins behind a token that may end an expression. -/
def reopens (kind : Kind) (letters : Text) : Bool :=
  match kind with
  | .mark => letters ≠ [')'] && letters ≠ [']'] && letters ≠ ['}']
  | _ => false

/-- Reads a token, the gap in front of which has been read. -/
def readToken (kind : Kind) (lexeme : Lexeme) (gap : List Tree) (rest : Text) (state : State) :
    Outcome :=
  match lexeme.length? rest with
  | some length =>
    let letters := rest.take length
    .read (gap ++ [.leaf none kind letters])
      { state with
        rest := rest.drop length
        markup := reopens kind letters
        afterExpression := false }
  | none => .missed

/-- Reads a semicolon. One is implied only between tokens, so the check comes anew behind every
comment. -/
def readSemicolon (gap : List Tree) : Nat → State → Outcome
  | 0, _ => .refused
  | fuel + 1, state =>
    if impliesSemicolon state.afterExpression fuel state.rest then
      .read gap { state with markup := true, afterExpression := false }
    else match commentOf false state.rest with
      | some (trees, rest) => readSemicolon (gap ++ trees) fuel { state with rest := rest }
      | none =>
        let (blanks, rest) := blanksOf state.rest
        readToken .mark (.exact [';']) (gap ++ blanks) rest state

/-- True if no semicolon is implied before the next token. -/
def isUnbroken (afterExpression markup : Bool) : Nat → Text → Bool
  | 0, _ => true
  | fuel + 1, text =>
    !impliesSemicolon afterExpression fuel text &&
      match commentOf markup text with
      | some (_, rest) => isUnbroken afterExpression markup fuel rest
      | none => true

/-- Follows rules one after the other. -/
def readAll (read : Rule Symbol → State → Outcome) (trees : List Tree) :
    List (Rule Symbol) → State → Outcome
  | [], state => .read trees state
  | rule :: rules, state =>
    match read rule state with
    | .read more next => readAll read (trees ++ more) rules next
    | .missed => .missed
    | .refused => .refused

/-- Follows the first rule that matches. -/
def readAny (read : Rule Symbol → State → Outcome) : List (Rule Symbol) → State → Outcome
  | [], _ => .missed
  | rule :: rules, state =>
    match read rule state with
    | .missed => readAny read rules state
    | outcome => outcome

/-- Follows a rule as often as it matches and reads something. -/
def readMany (read : State → Outcome) : Nat → State → Outcome
  | 0, _ => .refused
  | fuel + 1, state =>
    match read state with
    | .read [] _ | .missed => .read [] state
    | .read trees next =>
      match readMany read fuel next with
      | .read more last => .read (trees ++ more) last
      | outcome => outcome
    | .refused => .refused

/-- Follows the first link that an expression allows and that matches. -/
def readLink (read : Rule Symbol → State → Outcome) (acc : Tree) (state : State) :
    List (Link (Rule Symbol)) → Outcome
  | [] => .missed
  | link :: links =>
    if link.from_.isEmpty || link.from_.contains acc.kind then
      match read link.rest state with
      | .read trees next => .read [.node none link.kind (acc.withRole link.role :: trees)] next
      | .missed => readLink read acc state links
      | .refused => .refused
    else readLink read acc state links

/-- Lets an expression go on as long as some link matches. -/
def readLinks (read : Rule Symbol → State → Outcome) (links : List (Link (Rule Symbol)))
    (gap : List Tree) : Nat → Tree → State → Outcome
  | 0, _, _ => .refused
  | fuel + 1, acc, state =>
    match readLink read acc state links with
    | .read [longer] next => readLinks read links gap fuel longer next
    | .refused => .refused
    | _ => .read (gap ++ [acc]) state

/-- Follows a rule. The fuel bounds the depth of the reading. -/
def read (grammar : Symbol → Rule Symbol) : Nat → Rule Symbol → State → Outcome
  | 0, _, _ => .refused
  | fuel + 1, rule, state =>
    match rule with
    | .token kind lexeme =>
      let (spaces, rest) := gapOf state.markup fuel state.rest
      readToken kind lexeme spaces rest state
    | .glued kind lexeme => readToken kind lexeme [] state.rest state
    | .gap =>
      let (spaces, rest) := gapOf state.markup fuel state.rest
      .read spaces { state with rest := rest }
    | .semicolon => readSemicolon [] fuel state
    | .unbroken afterExpression =>
      if !state.semicolons || isUnbroken afterExpression state.markup fuel state.rest then
        .read [] state
      else .missed
    | .ref symbol => read grammar fuel (grammar symbol) state
    | .all rules => readAll (read grammar fuel) [] rules state
    | .any rules => readAny (read grammar fuel) rules state
    | .many rule => readMany (read grammar fuel rule) fuel state
    | .node kind rule =>
      match read grammar fuel rule state with
      | .read trees next => .read (Tree.gather kind trees) next
      | outcome => outcome
    | .part role rule =>
      match read grammar fuel rule state with
      | .read trees next => .read (Tree.markLast role trees) next
      | outcome => outcome
    | .only kinds rule =>
      match read grammar fuel rule state with
      | .read trees next =>
        if trees.getLast?.any (fun tree => kinds.contains tree.kind) then .read trees next
        else .missed
      | outcome => outcome
    | .chain base links =>
      match read grammar fuel base state with
      | .read trees next =>
        match trees.dropWhile Tree.isTrivia with
        | [acc] => readLinks (read grammar fuel) links (trees.takeWhile Tree.isTrivia) fuel acc next
        | _ => .read trees next
      | outcome => outcome
    | .unless rule =>
      match read grammar fuel rule state with
      | .read _ _ => .missed
      | _ => .read [] state
    | .commit rule =>
      match read grammar fuel rule state with
      | .missed => .refused
      | outcome => outcome
    | .within semicolons rule =>
      match read grammar fuel rule { state with semicolons := semicolons } with
      | .read trees next => .read trees { next with semicolons := state.semicolons }
      | outcome => outcome
    | .endExpression => .read [] { state with markup := false, afterExpression := true }
    | .reopen => .read [] { state with markup := true }

end Rule

end ImportMeter.Script
