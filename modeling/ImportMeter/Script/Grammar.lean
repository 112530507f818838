/-
This file puts the script grammar together and reads whole scripts with it. A keyword is a keyword
only where it can stand; anywhere else it is a name.
-/
import ImportMeter.Script.Grammar.Modules
import ImportMeter.Script.Grammar.Markup

namespace ImportMeter.Script

/-- The rule of each symbol. -/
def grammar : Symbol → Phrase
  | .statement => Phrase.statement
  | .caseStatement => Phrase.caseStatement
  | .block => Phrase.statementBlock
  | .functionBlock => Phrase.functionBlock
  | .importDeclaration => Phrase.importDeclaration
  | .exportDeclaration => Phrase.exportDeclaration
  | .moduleExportName => Phrase.moduleExportName
  | .declaration => Phrase.declaration
  | .lexicalDeclaration => Phrase.lexicalDeclaration
  | .variableDeclaration => Phrase.variableDeclaration
  | .ifStatement => Phrase.ifStatement
  | .switchStatement => Phrase.switchStatement
  | .forInStatement => Phrase.forInStatement
  | .forStatement => Phrase.forStatement
  | .whileStatement => Phrase.whileStatement
  | .doStatement => Phrase.doStatement
  | .tryStatement => Phrase.tryStatement
  | .withStatement => Phrase.withStatement
  | .jumpStatement => Phrase.jumpStatement
  | .labeledStatement => Phrase.labeledStatement
  | .expressionStatement => Phrase.expressionStatement
  | .sequence => Phrase.sequence
  | .expression => Phrase.expression
  | .binary level => Phrase.binary level
  | .unary => Phrase.unary
  | .operand => Phrase.operand
  | .assignable => Phrase.assignable
  | .postfixed => Phrase.postfixed
  | .primary => Phrase.primary
  | .newExpression => Phrase.newExpression
  | .importCall => Phrase.importCall
  | .arrowFunction => Phrase.arrowFunction
  | .parenthesized => Phrase.parenthesized
  | .array => Phrase.array
  | .object => Phrase.object
  | .propertyName => Phrase.propertyName
  | .parameters => Phrase.parameters
  | .patternWithDefault => Phrase.patternWithDefault
  | .destructuring => Phrase.destructuring
  | .arguments => Phrase.arguments
  | .functionExpression => Phrase.functionExpression
  | .classExpression => Phrase.classExpression
  | .classTail => Phrase.classTail
  | .decorator => Phrase.decorator
  | .string => Phrase.string
  | .template => Phrase.template
  | .regex => Phrase.regex
  | .element => Phrase.element
  | .elementName => Phrase.elementName
  | .elementHole => Phrase.elementHole

/-- A whole script: perhaps a line for the system that runs it, then statements. -/
def script : Phrase :=
  .all [
    Phrase.optional (.token .hashBangLine .hashBang), .reopen, .many (.ref .statement), .gap]

/-- More than the depth to which any rule can be followed in a text of some length. -/
def depthBound (length : Nat) : Nat := 256 * (length + 1)

/-- The syntax tree of a script, or `none` if the text is not one. -/
def parse? (source : Text) : Option Tree :=
  match Rule.read grammar (depthBound source.length) script ⟨source, true, true, false⟩ with
  | .read trees ⟨[], _, _, _⟩ => some (.node none .program trees)
  | _ => none

end ImportMeter.Script
