import ExprScan.Token.Basic

/-! Reserved words. -/
namespace ExprScan

def keywords : List String :=
  ["False", "None", "True", "and", "as", "assert", "async", "await", "break", "class", "continue",
    "def", "del", "elif", "else", "except", "finally", "for", "from", "global", "if", "import",
    "in", "is", "lambda", "nonlocal", "not", "or", "pass", "raise", "return", "try", "while",
    "with", "yield"]

/-- Upper and lower case are told apart. -/
def isKeyword (word : String) : Bool := keywords.contains word

def printWord : String := "print"

structure Dialect where
  printIsKeyword : Bool := true
deriving DecidableEq, Repr

namespace Dialect

def standard : Dialect := {}

def wordKind (dialect : Dialect) (word : String) : Kind :=
  if isKeyword word || dialect.printIsKeyword && word = printWord then .keyword else .identifier

end Dialect

end ExprScan
