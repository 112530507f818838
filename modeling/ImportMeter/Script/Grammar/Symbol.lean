/-
This file lists the nonterminal symbols of the script grammar and the small phrases that its rules
are made of.
-/
import ImportMeter.Script.Rule
import ImportMeter.Script.Word

namespace ImportMeter.Script

inductive Symbol where
  | statement
  | caseStatement
  | block
  | functionBlock
  | importDeclaration
  | exportDeclaration
  | moduleExportName
  | declaration
  | lexicalDeclaration
  | variableDeclaration
  | ifStatement
  | switchStatement
  | forInStatement
  | forStatement
  | whileStatement
  | doStatement
  | tryStatement
  | withStatement
  | jumpStatement
  | labeledStatement
  | expressionStatement
  | sequence
  | expression
  /-- Operands joined by operators of at least some level. -/
  | binary (level : Nat)
  | unary
  | operand
  | assignable
  | postfixed
  | primary
  | newExpression
  | importCall
  | arrowFunction
  | parenthesized
  | array
  | object
  | propertyName
  | parameters
  | patternWithDefault
  | destructuring
  | arguments
  | functionExpression
  | classExpression
  | classTail
  | decorator
  | string
  | template
  | regex
  | element
  | elementName
  | elementHole
  deriving DecidableEq

/-- A rule of the script grammar. -/
abbrev Phrase := Rule Symbol

namespace Phrase

def mark (letters : Text) : Phrase := .token .mark (.mark letters)

def markAmong (choices : List Text) : Phrase := .token .mark (.markAmong choices)

def exact (letters : Text) : Phrase := .token .mark (.exact letters)

def word (letters : Text) : Phrase := .token .mark (.word letters)

def wordAmong (choices : List Text) : Phrase := .token .mark (.wordAmong choices)

/-- A name where any word is one. -/
def anyName (kind : Kind) : Phrase := .token kind (.name [])

/-- A name where an expression may begin. -/
def freeName (kind : Kind) : Phrase := .token kind (.name Word.ofExpressions)

def nothing : Phrase := .all []

def optional (rule : Phrase) : Phrase := .any [rule, nothing]

/-- Succeeds without reading where the rule matches. -/
def peek (rule : Phrase) : Phrase := .unless (.unless rule)

/-- One or more phrases with commas between them. -/
def separated (rule : Phrase) : Phrase :=
  .all [rule, .many (.all [mark [','], rule])]

/-- Phrases with commas between them, any of which may be left out. -/
def sparse (rule : Phrase) : Phrase := separated (optional rule)

/-- Phrases with commas between them and perhaps one more comma at the end. -/
def listed (rule : Phrase) : Phrase :=
  optional (.all [separated rule, optional (mark [','])])

/-- What can carry on an expression but cannot begin a statement. -/
def continuation : Phrase :=
  .all [
    .unless (.token .number .number),
    .any [
      markAmong [['.'], ['?', '.'], ['?'], ['?', '?'], [','], ['*'], ['*', '*'], ['%'], ['&'],
        ['&', '&'], ['|'], ['|', '|'], ['^'], ['='], ['=', '='], ['=', '=', '='], ['!', '='],
        ['!', '=', '='], ['>'], ['>', '='], ['<', '='], ['>', '>'], ['>', '>', '>'], ['<', '<'],
        ['=', '>']],
      wordAmong [Word.inWord, Word.instanceofWord]]]

/-- Behind the brace that ends a block a semicolon may be implied; it adds nothing. -/
def blockEnd : Phrase :=
  optional (.all [.unless (.unbroken false), .reopen])

def block : Phrase := .all [.ref .block, blockEnd]

end Phrase

end ImportMeter.Script
