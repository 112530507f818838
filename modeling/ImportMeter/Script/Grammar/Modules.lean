/-
This file holds the rules of import and export declarations.
-/
import ImportMeter.Script.Grammar.Statements

namespace ImportMeter.Script.Phrase

open Word

def moduleExportName : Phrase := .any [anyName .identifier, .ref .string]

def fromClause : Phrase := .all [word fromWord, .part .source (.ref .string)]

def namespaceImport : Phrase :=
  .node .namespaceImport (.all [mark ['*'], word asWord, anyName .identifier])

def importSpecifier : Phrase :=
  .node .importSpecifier (.any [
    .all [.part .name (.ref .moduleExportName), word asWord, .part .alias (anyName .identifier)],
    .part .name (anyName .identifier)])

def namedImports : Phrase :=
  .node .namedImports (.all [mark ['{'], listed importSpecifier, mark ['}']])

def importClause : Phrase :=
  .node .importClause (.any [
    namespaceImport,
    namedImports,
    .all [anyName .identifier,
      optional (.all [mark [','], .any [namespaceImport, namedImports]])]])

def importAttribute : Phrase :=
  .all [.unbroken false, .node .importAttribute (.all [word withWord, .ref .object])]

def importDeclaration : Phrase :=
  .node .importStatement (.all [
    word importWord,
    .any [.all [importClause, fromClause], .part .source (.ref .string)],
    optional importAttribute,
    .semicolon])

def exportSpecifier : Phrase :=
  .node .exportSpecifier (.any [
    .all [.part .name (.ref .moduleExportName), word asWord,
      .part .alias (.ref .moduleExportName)],
    .part .name (.ref .moduleExportName)])

def exportClause : Phrase :=
  .node .exportClause (.all [mark ['{'], listed exportSpecifier, mark ['}']])

def namespaceExport : Phrase :=
  .node .namespaceExport (.all [mark ['*'], word asWord, .ref .moduleExportName])

/-- What follows the word `export`. -/
def exported : Phrase :=
  .any [
    .all [namespaceExport, fromClause, .semicolon],
    .all [mark ['*'], fromClause, .semicolon],
    .all [exportClause, .unbroken false, fromClause, .semicolon],
    .all [exportClause, .semicolon],
    .part .declaration (.ref .declaration),
    .all [word defaultWord, .any [
      .part .declaration (.ref .declaration),
      .all [.part .value (.ref .expression), .semicolon]]]]

/-- `export` is a name too, so on a line of its own it exports nothing. -/
def exportDeclaration : Phrase :=
  .node .exportStatement (.all [decorators, word exportWord, .unbroken true, exported])

end ImportMeter.Script.Phrase
