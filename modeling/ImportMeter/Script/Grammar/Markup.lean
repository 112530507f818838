/-
This file holds the rules of markup elements in expressions.
-/
import ImportMeter.Script.Grammar.Expressions

namespace ImportMeter.Script.Phrase

def markupName (kind : Kind) : Phrase := .token kind .markupName

def namespaceName : Phrase :=
  .node .jsxNamespaceName (.all [
    markupName .identifier, exact [':'], markupName .identifier])

def elementName : Phrase :=
  .any [
    namespaceName,
    .chain (markupName .identifier)
      [⟨[], none, .memberExpression, .all [exact ['.'], anyName .propertyIdentifier]⟩]]

/-- An expression in braces, or nothing in them. -/
def elementHole : Phrase :=
  .node .jsxExpression (.within false (.all [
    exact ['{'],
    .commit (.all [optional (.any [.ref .sequence, spread]), mark ['}']])]))

def attributePart (quote : Char) : Phrase :=
  .any [
    .glued .stringFragment (.attributeText quote),
    .glued .htmlCharacterReference .reference]

def attributeValue : Phrase :=
  .any [
    quoted attributePart '\x22',
    quoted attributePart '\x27',
    .ref .elementHole,
    .ref .element]

def elementAttribute : Phrase :=
  .any [
    .ref .elementHole,
    .node .jsxAttribute (.all [
      .any [namespaceName, markupName .propertyIdentifier],
      optional (.all [exact ['='], attributeValue])])]

def closingElement : Phrase :=
  .node .jsxClosingElement (.all [
    exact ['<', '/'], optional (.ref .elementName), exact ['>']])

def elementChild : Phrase :=
  .any [
    .glued .jsxText .markupText,
    .glued .htmlCharacterReference .reference,
    .ref .element,
    .ref .elementHole]

/-- What follows the bracket that ends an opening tag. Between the tags of one element the names need
not agree. -/
def elementRest : Phrase := .commit (.all [.many elementChild, closingElement])

/-- The start of a tag with a name, up to the bracket that ends it. -/
def elementStart : Phrase :=
  .node .jsxOpeningElement (.all [exact ['<'], .ref .elementName, .many elementAttribute])

/-- An element without a name, an element that closes itself, or an element with its children. -/
def element : Phrase :=
  .any [
    .node .jsxElement (.all [
      .node .jsxOpeningElement (.all [exact ['<'], exact ['>']]), elementRest]),
    .only [.jsxElement, .jsxSelfClosingElement] (.chain elementStart [
      ⟨[.jsxOpeningElement], none, .jsxSelfClosingElement, exact ['/', '>']⟩,
      ⟨[.jsxOpeningElement], none, .jsxElement, .all [exact ['>'], elementRest]⟩])]

end ImportMeter.Script.Phrase
