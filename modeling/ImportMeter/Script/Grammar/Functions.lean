/-
This file holds the rules of functions, classes, objects and patterns.
-/
import ImportMeter.Script.Grammar.Expressions

namespace ImportMeter.Script.Phrase

open Word

def assigned : Phrase := .all [mark ['='], .ref .expression]

def initializer : Phrase := .all [mark ['='], .part .value (.ref .expression)]

def givenName : Phrase := .part .name (anyName .identifier)

def binding : Phrase := .any [.ref .destructuring, anyName .identifier]

/-- The parameters and the body of a function. -/
def functionTail : Phrase := .all [.ref .parameters, .ref .functionBlock]

def functionStart : Phrase :=
  .all [optional (.all [word asyncWord, .unbroken true]), word functionWord]

def functionDeclaration : Phrase :=
  .any [
    .node .functionDeclaration (.all [functionStart, givenName, functionTail, blockEnd]),
    .node .generatorFunctionDeclaration
      (.all [functionStart, mark ['*'], givenName, functionTail, blockEnd])]

def functionExpression : Phrase :=
  .any [
    .node .functionExpression (.all [functionStart, optional givenName, functionTail]),
    .node .generatorFunction (.all [functionStart, mark ['*'], optional givenName, functionTail])]

/-- A block as a function's body. What follows the parameters of a function can be nothing else. -/
def functionBlock : Phrase := .commit (.ref .block)

/-- A parameter of an arrow function: a name or a pattern, perhaps with a default. -/
def arrowParameter : Phrase :=
  .any [
    .node .restPattern (.all [mark ['.', '.', '.'],
      .any [.ref .destructuring, freeName .identifier]]),
    .chain (.any [.ref .destructuring, freeName .identifier])
      [⟨[], none, .assignmentPattern, assigned⟩]]

def arrowParameters : Phrase :=
  .any [
    freeName .identifier,
    .node .formalParameters (.within false (.all [
      mark ['('], listed arrowParameter, mark [')']]))]

/-- An opening brace, a name and a colon: the start of a block whose first statement has a label, or
that of an object. -/
def labelStart : Phrase :=
  .all [mark ['{'], .token .statementIdentifier (.name (ofExpressions ++ ofStatements)), mark [':']]

/-- A brace behind an arrow opens a block if it can, and an object otherwise. What may start with a
label is an object first. -/
def arrowBody : Phrase :=
  .commit (.any [
    .all [peek labelStart, peek (.ref .expression), .ref .expression],
    .ref .block,
    .all [.unless (.all [mark ['{'], wordAmong ofStatements]), .ref .expression]])

def arrowFunction : Phrase :=
  .any [
    .node .arrowFunction (.all [
      word asyncWord, .unbroken true, arrowParameters, mark ['=', '>'], arrowBody]),
    .node .arrowFunction (.all [arrowParameters, mark ['=', '>'], arrowBody])]

def restPattern : Phrase :=
  .node .restPattern (.all [mark ['.', '.', '.'], .any [.ref .destructuring, .ref .assignable]])

def patternWithDefault : Phrase :=
  .chain (.any [.ref .destructuring, .ref .assignable])
    [⟨[], none, .assignmentPattern, assigned⟩]

def parameters : Phrase :=
  .node .formalParameters (.within false (.all [
    mark ['('], listed (.any [restPattern, .ref .patternWithDefault]), mark [')']]))

def propertyName : Phrase :=
  .any [
    anyName .propertyIdentifier,
    .token .privatePropertyIdentifier .privateName,
    .ref .string,
    .token .number .number,
    .node .computedPropertyName (.within false (.all [
      mark ['['], .ref .expression, mark [']']]))]

def pairPattern : Phrase :=
  .node .pairPattern (.all [.ref .propertyName, mark [':'], .ref .patternWithDefault])

def shorthandPattern : Phrase :=
  .chain (anyName .shorthandPropertyIdentifierPattern)
    [⟨[], none, .objectAssignmentPattern, assigned⟩]

def destructuring : Phrase :=
  .within false (.any [
    .node .objectPattern (.all [
      mark ['{'], sparse (.any [pairPattern, restPattern, shorthandPattern]), mark ['}']]),
    .node .arrayPattern (.all [
      mark ['['], sparse (.any [restPattern, .ref .patternWithDefault]), mark [']']])])

/-- What follows the modifiers of a method. -/
def methodTail : Phrase :=
  .all [.part .name (.ref .propertyName), .ref .parameters, .ref .functionBlock]

/-- A getter, a setter, a generator or a plain method. A line end behind `get` in a class ends a
field of that name. -/
def accessorMethod : Phrase :=
  .any [
    .all [.any [.all [wordAmong [getWord, setWord], .unbroken false], mark ['*']], methodTail],
    methodTail]

def asyncMethod : Phrase :=
  .any [.all [word asyncWord, .unbroken false, accessorMethod], accessorMethod]

/-- A method with its modifiers. `static get` may be followed by a line end. -/
def method : Phrase :=
  .any [
    .all [word staticWord, word getWord, methodTail],
    .all [word staticWord, .unbroken false, asyncMethod],
    asyncMethod]

def objectMember : Phrase :=
  .any [
    .node .pair (.all [.ref .propertyName, mark [':'], .part .value (.ref .expression)]),
    spread,
    .node .methodDefinition method,
    anyName .shorthandPropertyIdentifier]

def object : Phrase :=
  .node .object (.within false (.all [mark ['{'], sparse objectMember, mark ['}']]))

def plainField : Phrase :=
  .all [.part .name (.ref .propertyName), optional initializer]

def field : Phrase :=
  .any [.all [word staticWord, .unbroken false, plainField], plainField]

def decorators : Phrase := .many (.ref .decorator)

def classMember : Phrase :=
  .any [
    mark [';'],
    .node .classStaticBlock (.all [word staticWord, .unbroken false, block]),
    .all [.node .methodDefinition (.all [decorators, method]), optional (mark [';'])],
    .all [.node .fieldDefinition (.all [decorators, field]), .semicolon]]

def classBody : Phrase :=
  .node .classBody (.within true (.all [mark ['{'], .many classMember, mark ['}']]))

/-- What follows the name of a class. -/
def classTail : Phrase :=
  .all [
    optional (.node .classHeritage (.within false (.all [word extendsWord, .ref .expression]))),
    .commit classBody]

def className : Phrase := .part .name (.token .identifier (.name [extendsWord]))

def classStart : Phrase := .all [decorators, word classWord]

def classDeclaration : Phrase :=
  .node .classDeclaration (.all [classStart, className, .ref .classTail, blockEnd])

def classExpression : Phrase :=
  .node .classExpression (.all [classStart, optional className, .ref .classTail])

def decorator : Phrase :=
  .node .decorator (.all [
    mark ['@'],
    .any [
      .chain
        (.chain (anyName .identifier)
          [⟨[], none, .memberExpression, .all [mark ['.'], property]⟩])
        [⟨[.identifier, .memberExpression], some .callee, .callExpression,
          .part .arguments (.ref .arguments)⟩],
      .ref .parenthesized]])

end ImportMeter.Script.Phrase
