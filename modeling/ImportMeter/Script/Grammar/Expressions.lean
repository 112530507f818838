/-
This file holds the rules of expressions.
-/
import ImportMeter.Script.Grammar.Symbol

namespace ImportMeter.Script.Phrase

open Word

/-- An operator between two operands. -/
structure Operator where
  /-- How closely it binds: more closely at a higher level. -/
  level : Nat
  marks : List Text
  words : List Text
  /-- The least level of the operators in its right operand. -/
  right : Nat

/-- All operators group to the left except the power. -/
def operators : List Operator := [
  ⟨0, [['|', '|']], [], 1⟩,
  ⟨1, [['&', '&']], [], 2⟩,
  ⟨2, [['|']], [], 3⟩,
  ⟨3, [['^']], [], 4⟩,
  ⟨4, [['&']], [], 5⟩,
  ⟨5, [['=', '='], ['=', '=', '='], ['!', '='], ['!', '=', '=']], [], 6⟩,
  ⟨6, [['<'], ['>'], ['<', '='], ['>', '=']], [instanceofWord, inWord], 7⟩,
  ⟨7, [['<', '<'], ['>', '>'], ['>', '>', '>']], [], 8⟩,
  ⟨8, [['+'], ['-']], [], 9⟩,
  ⟨9, [['*'], ['/'], ['%']], [], 10⟩,
  ⟨10, [['*', '*']], [], 10⟩]

def Operator.link (operator : Operator) : Link Phrase :=
  ⟨[], none, .binaryExpression,
    .all [.any [markAmong operator.marks, wordAmong operator.words],
      .ref (.binary operator.right)]⟩

def binary (level : Nat) : Phrase :=
  .any [
    .chain (.ref .unary) ((operators.filter (level ≤ ·.level)).map Operator.link),
    .node .binaryExpression
      (.all [.token .privatePropertyIdentifier .privateName, word inWord, .ref (.binary 7)])]

def spread : Phrase := .node .spreadElement (.all [mark ['.', '.', '.'], .ref .expression])

def expression : Phrase :=
  .all [
    .chain (.ref (.binary 0)) [
      ⟨[], none, .binaryExpression, .all [mark ['?', '?'], .ref (.binary 0)]⟩,
      ⟨[], none, .ternaryExpression,
        .all [mark ['?'], .within false (.ref .expression), mark [':'], .ref .expression]⟩],
    .endExpression]

def sequence : Phrase :=
  .chain (.ref .expression) [
    ⟨[], none, .sequenceExpression, .all [mark [','], separated (.ref .expression)]⟩]

def unary : Phrase :=
  .any [
    .node .unaryExpression (.all [
      .any [markAmong [['!'], ['~'], ['-'], ['+']], wordAmong [typeofWord, voidWord, deleteWord]],
      .ref .unary]),
    .node .updateExpression (.all [markAmong [['+', '+'], ['-', '-']], .ref .unary]),
    .node .awaitExpression (.all [word awaitWord, .ref .unary]),
    .node .yieldExpression (.all [
      word yieldWord,
      .any [
        .all [mark ['*'], .ref .expression],
        .all [.unbroken true, .unless (wordAmong [inWord, instanceofWord]), .ref .expression],
        nothing]]),
    .ref .operand]

/-- What may stand on the left of an equals sign besides a pattern. -/
def assignableKinds : List Kind :=
  [.identifier, .undefinedWord, .memberExpression, .subscriptExpression]

def parenthesizedKinds : List Kind := .parenthesizedExpression :: assignableKinds

def assignmentMarks : List Text :=
  [['+', '='], ['-', '='], ['*', '='], ['/', '='], ['%', '='], ['^', '='], ['&', '='], ['|', '='],
    ['>', '>', '='], ['>', '>', '>', '='], ['<', '<', '='], ['*', '*', '='], ['&', '&', '='],
    ['|', '|', '='], ['?', '?', '=']]

/-- An operand of the closest operators. An assignment is one too, and takes all that follows. -/
def operand : Phrase :=
  .any [
    .chain (.ref .postfixed) [
      ⟨parenthesizedKinds, none, .assignmentExpression, .all [mark ['='], .ref .expression]⟩,
      ⟨parenthesizedKinds, none, .augmentedAssignmentExpression,
        .all [markAmong assignmentMarks, .ref .expression]⟩],
    .node .assignmentExpression (.all [.ref .destructuring, mark ['='], .ref .expression])]

def property : Phrase :=
  .any [anyName .propertyIdentifier, .token .privatePropertyIdentifier .privateName]

def index : Phrase :=
  .within false (.all [mark ['['], .commit (.all [.ref .sequence, mark [']']])])

def optionalDot : Phrase := .token .optionalChain (.mark ['?', '.'])

/-- The ways on from an object that bind more closely than `new`. -/
def memberLinks : List (Link Phrase) := [
  ⟨[], none, .memberExpression, .all [mark ['.'], property]⟩,
  ⟨[], none, .memberExpression, .all [optionalDot, property]⟩,
  ⟨[], none, .subscriptExpression, index⟩,
  ⟨[], none, .subscriptExpression, .all [optionalDot, index]⟩,
  ⟨[], some .callee, .callExpression, .part .arguments (.ref .template)⟩,
  ⟨[], some .callee, .callExpression, .all [optionalDot, .part .arguments (.ref .arguments)]⟩]

def callLink : Link Phrase :=
  ⟨[], some .callee, .callExpression, .part .arguments (.ref .arguments)⟩

def updateLink : Link Phrase :=
  ⟨[], none, .updateExpression, .all [.unbroken true, markAmong [['+', '+'], ['-', '-']]]⟩

def postfixed : Phrase :=
  .chain (.any [.ref .primary, .ref .newExpression, .ref .importCall, .ref .element])
    (memberLinks ++ [callLink, updateLink])

/-- What stands for a place to store a value, where a pattern could stand. -/
def assignable : Phrase :=
  .only assignableKinds (.chain
    (.any [
      .token .undefinedWord (.word undefinedWord),
      freeName .identifier,
      .token .thisWord (.word thisWord),
      .token .superWord (.word superWord)])
    (memberLinks ++ [callLink]))

def arguments : Phrase :=
  .node .arguments (.within false (.all [
    mark ['('], .commit (.all [sparse (.any [.ref .expression, spread]), mark [')']])]))

def importCall : Phrase :=
  .any [
    .node .callExpression (.all [
      .part .callee (.token .importWord (.word importWord)),
      .part .arguments (.ref .arguments)]),
    .node .metaProperty (.all [word importWord, mark ['.'], word metaWord])]

def newTarget : Phrase :=
  .node .metaProperty (.all [word newWord, mark ['.'], word targetWord])

def newExpression : Phrase :=
  .any [
    newTarget,
    .node .newExpression (.all [
      word newWord,
      .any [.chain (.any [.ref .primary, newTarget, .ref .importCall]) memberLinks,
        .ref .newExpression],
      optional (.part .arguments (.ref .arguments))])]

def parenthesized : Phrase :=
  .node .parenthesizedExpression (.within false (.all [
    mark ['('], .ref .sequence, mark [')']]))

def array : Phrase :=
  .node .array (.within false (.all [
    mark ['['], sparse (.any [.ref .expression, spread]), mark [']']]))

def literal : Phrase :=
  .any [
    .token .undefinedWord (.word undefinedWord),
    freeName .identifier,
    .ref .string,
    .token .number .number,
    .token .thisWord (.word thisWord),
    .token .superWord (.word superWord),
    .token .nullWord (.word nullWord),
    .token .trueWord (.word trueWord),
    .token .falseWord (.word falseWord),
    .ref .template,
    .ref .regex]

/-- Parentheses in front of an arrow hold parameters; an array or object in front of an equals sign is
a pattern, and not read here. -/
def primary : Phrase :=
  .any [
    .all [.ref .parenthesized, .unless (mark ['=', '>'])],
    .ref .arrowFunction,
    .all [peek (mark ['(']), .commit (.any [])],
    .ref .functionExpression,
    literal,
    .all [.any [.ref .array, .ref .object], .unless (mark ['='])],
    .ref .classExpression]

def template : Phrase :=
  .node .templateString (.all [
    mark ['\x60'],
    .many (.any [
      .glued .stringFragment .templateText,
      .glued .escapeSequence .escape,
      .node .templateSubstitution (.all [
        .glued .mark (.exact ['$', '{']),
        .within false (.commit (.all [.ref .sequence, mark ['}']]))])]),
    .glued .mark (.exact ['\x60'])])

def regex : Phrase :=
  .node .regex (.all [
    .token .mark .regexOpen,
    .glued .regexPattern .regexBody,
    .glued .mark (.exact ['/']),
    optional (.glued .regexFlags .regexFlags)])

/-- Text between two quotes of the same kind. -/
def quoted (part : Char → Phrase) (quote : Char) : Phrase :=
  .node .string (.all [exact [quote], .many (part quote), exact [quote]])

def stringPart (quote : Char) : Phrase :=
  .any [.glued .stringFragment (.fragment quote), .glued .escapeSequence .escape]

def string : Phrase := .any [quoted stringPart '\x22', quoted stringPart '\x27']

end ImportMeter.Script.Phrase
