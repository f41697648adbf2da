import ExprScan.Scan.Segment

/-! The lexical grammar: which texts are lexemes of which kind, said without reading a text from
left to right, and which lexeme a text should start with. -/
namespace ExprScan

def Dialect.Reserves (dialect : Dialect) (word : String) : Prop :=
  word ∈ keywords ∨ dialect.printIsKeyword = true ∧ word = printWord

namespace Lexeme

def Digits (text : List Char) : Prop := ∀ c ∈ text, c.isDigit

def Integer (text : List Char) : Prop := text ≠ [] ∧ Digits text

def Decimal (text : List Char) : Prop :=
  ∃ whole fraction, text = whole ++ '.' :: fraction ∧ Integer whole ∧ Digits fraction

def Word (text : List Char) : Prop :=
  ∃ first more, text = first :: more ∧ isWordStart first ∧ ∀ c ∈ more, isWordPart c

def Operator (text : List Char) : Prop :=
  (∃ c ∈ singleOperators, text = [c]) ∨
    ∃ first second, (first, second) ∈ operatorPairs.erase ('/', '/') ∧ text = [first, second]

/-- What may stand between the quotes: a plain character, or a backslash and any character. -/
def Item (text : List Char) : Prop :=
  (∃ c, c ≠ '"' ∧ c ≠ '\\' ∧ text = [c]) ∨ ∃ c, text = ['\\', c]

def Quoted (text : List Char) : Prop :=
  ∃ items : List (List Char), (∀ item ∈ items, Item item) ∧ text = '"' :: (items.flatten ++ ['"'])

def LineComment (text : List Char) : Prop := ∃ body, text = '/' :: '/' :: body ∧ '\n' ∉ body

/-- A text that ends with the first mark in it that closes a comment. -/
def ClosedOnce (text : List Char) : Prop :=
  (∃ body, text = body ++ ['*', '/']) ∧
    ∀ before after, text = before ++ '*' :: '/' :: after → after = []

def BlockComment (text : List Char) : Prop := ∃ body, text = '/' :: '*' :: body ∧ ClosedOnce body

end Lexeme

def Lexeme (dialect : Dialect) (kind : Kind) (text : List Char) : Prop :=
  match kind with
  | .int => Lexeme.Integer text
  | .float => Lexeme.Decimal text
  | .identifier => Lexeme.Word text ∧ ¬ dialect.Reserves (String.ofList text)
  | .keyword => Lexeme.Word text ∧ dialect.Reserves (String.ofList text)
  | .operator => Lexeme.Operator text
  | .string => Lexeme.Quoted text
  | .comment => Lexeme.LineComment text ∨ Lexeme.BlockComment text

/-- A text starts a string or a block comment that is never closed. -/
inductive Open (text : List Char) : Fault → Prop where
  | string : ['"'] <+: text → (∀ lexeme, lexeme <+: text → ¬ Lexeme.Quoted lexeme) →
      Open text .unterminatedString
  | comment : ['/', '*'] <+: text → (∀ lexeme, lexeme <+: text → ¬ Lexeme.BlockComment lexeme) →
      Open text .unterminatedComment

/-- What a text starts with, by the grammar alone: all of it where it opens what it does not close,
else the longest lexeme, and one character where no lexeme starts. -/
inductive Leading (dialect : Dialect) (text : List Char) : Label → List Char → Prop where
  | opened {fault : Fault} : Open text fault → Leading dialect text (.fault fault) text
  | longest {kind : Kind} {lexeme : List Char} : (∀ fault, ¬ Open text fault) →
      lexeme <+: text → Lexeme dialect kind lexeme →
      (∀ other longer, longer <+: text → Lexeme dialect other longer →
        longer.length ≤ lexeme.length) →
      Leading dialect text (.token kind) lexeme
  | skipped {c : Char} : (∀ fault, ¬ Open text fault) → [c] <+: text →
      (∀ kind lexeme, lexeme <+: text → ¬ Lexeme dialect kind lexeme) →
      Leading dialect text (if isBlank c then .blank else .fault .unknownCharacter) [c]

end ExprScan
