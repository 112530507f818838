/-
This file spells the keywords of scripts, those that are names elsewhere included.
-/
import ImportMeter.Text.Basic

namespace ImportMeter.Script.Word

def asWord : Text := ['a', 's']
def asyncWord : Text := ['a', 's', 'y', 'n', 'c']
def awaitWord : Text := ['a', 'w', 'a', 'i', 't']
def breakWord : Text := ['b', 'r', 'e', 'a', 'k']
def caseWord : Text := ['c', 'a', 's', 'e']
def catchWord : Text := ['c', 'a', 't', 'c', 'h']
def classWord : Text := ['c', 'l', 'a', 's', 's']
def constWord : Text := ['c', 'o', 'n', 's', 't']
def continueWord : Text := ['c', 'o', 'n', 't', 'i', 'n', 'u', 'e']
def debuggerWord : Text := ['d', 'e', 'b', 'u', 'g', 'g', 'e', 'r']
def defaultWord : Text := ['d', 'e', 'f', 'a', 'u', 'l', 't']
def deleteWord : Text := ['d', 'e', 'l', 'e', 't', 'e']
def doWord : Text := ['d', 'o']
def elseWord : Text := ['e', 'l', 's', 'e']
def exportWord : Text := ['e', 'x', 'p', 'o', 'r', 't']
def extendsWord : Text := ['e', 'x', 't', 'e', 'n', 'd', 's']
def falseWord : Text := ['f', 'a', 'l', 's', 'e']
def finallyWord : Text := ['f', 'i', 'n', 'a', 'l', 'l', 'y']
def forWord : Text := ['f', 'o', 'r']
def fromWord : Text := ['f', 'r', 'o', 'm']
def functionWord : Text := ['f', 'u', 'n', 'c', 't', 'i', 'o', 'n']
def getWord : Text := ['g', 'e', 't']
def ifWord : Text := ['i', 'f']
def importWord : Text := ['i', 'm', 'p', 'o', 'r', 't']
def inWord : Text := ['i', 'n']
def instanceofWord : Text := ['i', 'n', 's', 't', 'a', 'n', 'c', 'e', 'o', 'f']
def letWord : Text := ['l', 'e', 't']
def metaWord : Text := ['m', 'e', 't', 'a']
def newWord : Text := ['n', 'e', 'w']
def nullWord : Text := ['n', 'u', 'l', 'l']
def ofWord : Text := ['o', 'f']
def returnWord : Text := ['r', 'e', 't', 'u', 'r', 'n']
def setWord : Text := ['s', 'e', 't']
def staticWord : Text := ['s', 't', 'a', 't', 'i', 'c']
def superWord : Text := ['s', 'u', 'p', 'e', 'r']
def switchWord : Text := ['s', 'w', 'i', 't', 'c', 'h']
def targetWord : Text := ['t', 'a', 'r', 'g', 'e', 't']
def thisWord : Text := ['t', 'h', 'i', 's']
def throwWord : Text := ['t', 'h', 'r', 'o', 'w']
def trueWord : Text := ['t', 'r', 'u', 'e']
def tryWord : Text := ['t', 'r', 'y']
def typeofWord : Text := ['t', 'y', 'p', 'e', 'o', 'f']
def undefinedWord : Text := ['u', 'n', 'd', 'e', 'f', 'i', 'n', 'e', 'd']
def varWord : Text := ['v', 'a', 'r']
def voidWord : Text := ['v', 'o', 'i', 'd']
def whileWord : Text := ['w', 'h', 'i', 'l', 'e']
def withWord : Text := ['w', 'i', 't', 'h']
def yieldWord : Text := ['y', 'i', 'e', 'l', 'd']

/-- Words that cannot be names where an expression begins. -/
def ofExpressions : List Text :=
  [functionWord, classWord, newWord, awaitWord, yieldWord, typeofWord, voidWord, deleteWord,
    importWord, thisWord, superWord, nullWord, trueWord, falseWord, undefinedWord]

/-- Words that cannot be names where a statement begins, besides those of expressions. -/
def ofStatements : List Text :=
  [ifWord, forWord, whileWord, doWord, switchWord, tryWord, withWord, breakWord, continueWord,
    debuggerWord, returnWord, throwWord, varWord, constWord]

end ImportMeter.Script.Word
