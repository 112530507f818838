/-
This file holds the rules of statements.
-/
import ImportMeter.Script.Grammar.Functions

namespace ImportMeter.Script.Phrase

open Word

/-- A statement. A block or declaration that an operator carries on is read as an expression. -/
def statement : Phrase :=
  .within true (.all [.gap, .any [
    .all [block, .unless continuation],
    .node .emptyStatement (mark [';']),
    .ref .importDeclaration,
    .ref .exportDeclaration,
    .ref .declaration,
    .ref .ifStatement,
    .ref .forInStatement,
    .ref .forStatement,
    .ref .whileStatement,
    .ref .doStatement,
    .ref .switchStatement,
    .ref .tryStatement,
    .ref .withStatement,
    .ref .jumpStatement,
    .ref .labeledStatement,
    .ref .expressionStatement]])

def statementBlock : Phrase :=
  .node .statementBlock (.all [mark ['{'], .many (.ref .statement), mark ['}']])

def declaration : Phrase :=
  .any [
    .all [.any [functionDeclaration, classDeclaration], .unless continuation],
    .ref .lexicalDeclaration,
    .ref .variableDeclaration]

def declarator (name : Phrase) : Phrase :=
  .node .variableDeclarator (.all [.part .name name, optional initializer])

/-- `let` is a name too, so on a line of its own it declares nothing. -/
def lexicalDeclaration : Phrase :=
  .node .lexicalDeclaration (.all [
    .any [
      .all [word letWord, .unbroken true, separated (declarator (.any [
        .ref .destructuring, .token .identifier (.name [inWord, instanceofWord])]))],
      .all [word constWord, separated (declarator binding)]],
    .semicolon])

def variableDeclaration : Phrase :=
  .node .variableDeclaration (.all [
    word varWord, separated (declarator binding), .semicolon])

/-- A condition in parentheses, with which no expression ends. -/
def condition : Phrase := .all [.commit (.ref .parenthesized), .reopen]

def ifStatement : Phrase :=
  .node .ifStatement (.all [
    word ifWord, condition, .ref .statement,
    optional (.node .elseClause (.all [word elseWord, .ref .statement]))])

def whileStatement : Phrase :=
  .node .whileStatement (.all [word whileWord, condition, .ref .statement])

def withStatement : Phrase :=
  .node .withStatement (.all [word withWord, condition, .ref .statement])

def doStatement : Phrase :=
  .node .doStatement (.all [
    word doWord, .ref .statement, word whileWord, .commit (.ref .parenthesized),
    optional .semicolon])

def caseStatement : Phrase :=
  .all [.unless (wordAmong [caseWord, defaultWord]), .ref .statement]

def switchCase : Phrase :=
  .any [
    .node .switchCase (.all [
      word caseWord, .within false (.ref .sequence), mark [':'], .many (.ref .caseStatement)]),
    .node .switchDefault (.all [
      word defaultWord, mark [':'], .many (.ref .caseStatement)])]

def switchStatement : Phrase :=
  .node .switchStatement (.all [
    word switchWord, condition,
    .node .switchBody (.all [mark ['{'], .many switchCase, mark ['}']]),
    .reopen])

def inOrOf : Phrase := wordAmong [inWord, ofWord]

/-- The variable or place that a loop over keys or elements fills. -/
def loopTarget : Phrase :=
  .any [
    .all [wordAmong [letWord, constWord], binding, inOrOf],
    .all [word varWord, binding,
      optional (.all [mark ['='], .ref (.binary 7)]), inOrOf],
    .all [.ref .destructuring, inOrOf],
    .all [.ref .assignable, inOrOf],
    .all [.ref .parenthesized, inOrOf]]

def forInStatement : Phrase :=
  .node .forInStatement (.all [
    word forWord, optional (word awaitWord),
    .within false (.all [mark ['('], loopTarget, .ref .sequence, mark [')']]),
    .reopen, .ref .statement])

def emptyStatement : Phrase := .node .emptyStatement (mark [';'])

def forStatement : Phrase :=
  .node .forStatement (.all [
    word forWord,
    .within false (.all [
      mark ['('],
      .any [
        .ref .lexicalDeclaration,
        .ref .variableDeclaration,
        .all [.ref .sequence, mark [';']],
        emptyStatement],
      .any [.all [.ref .sequence, mark [';']], emptyStatement],
      optional (.ref .sequence),
      mark [')']]),
    .reopen, .ref .statement])

def catchClause : Phrase :=
  .node .catchClause (.all [
    word catchWord,
    optional (.all [mark ['('], binding, mark [')']]),
    .commit block])

def tryStatement : Phrase :=
  .node .tryStatement (.all [
    word tryWord, .commit block, optional catchClause,
    optional (.node .finallyClause (.all [word finallyWord, .commit block]))])

def labelJump (kind : Kind) (letters : Text) : Phrase :=
  .node kind (.all [
    word letters, optional (.all [.unbroken false, anyName .statementIdentifier]), .semicolon])

def jumpStatement : Phrase :=
  .any [
    .node .returnStatement (.all [
      word returnWord, optional (.all [.unbroken false, .ref .sequence]), .semicolon]),
    .node .throwStatement (.all [word throwWord, .ref .sequence, .semicolon]),
    labelJump .breakStatement breakWord,
    labelJump .continueStatement continueWord,
    .node .debuggerStatement (.all [word debuggerWord, .semicolon])]

def labeledStatement : Phrase :=
  .node .labeledStatement (.all [
    .token .statementIdentifier (.name (ofExpressions ++ ofStatements)), mark [':'],
    .ref .statement])

/-- An expression as a statement. It begins with no word that begins a statement, not even behind an
opening brace. -/
def expressionStatement : Phrase :=
  .node .expressionStatement (.all [
    .unless (.all [optional (mark ['{']), wordAmong ofStatements]),
    .ref .sequence, .semicolon])

end ImportMeter.Script.Phrase
