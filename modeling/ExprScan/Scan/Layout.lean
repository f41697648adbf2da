import ExprScan.Scan.Lexeme

/-! Laying tokens out as a text, and where a token can end in a text. -/
namespace ExprScan

/-- Whether a token stays as it is when the text goes on with the given character, or ends. -/
def endsBefore (kind : Kind) (lexeme : List Char) : Option Char → Bool
  | none => true
  | some c =>
    match kind with
    | .int => !c.isDigit && c ≠ '.'
    | .float => !c.isDigit
    | .identifier | .keyword => !isWordPart c
    | .operator =>
      match lexeme with
      | [o] => !isOperatorPair o c && !(o = '/' && c = '*')
      | _ => true
    | .string => true
    | .comment => if ['/', '/'].isPrefixOf lexeme then c = '\n' else true

/-- Tokens with the blanks that stand behind each of them. -/
abbrev Layout := List (Token × List Char)

namespace Layout

def text (layout : Layout) : List Char :=
  layout.flatMap fun (token, gap) => token.lexeme.toList ++ gap

/-- Every token is one of the dialect, and nothing but blanks stands between two of them. -/
def Printable (dialect : Dialect) (layout : Layout) : Prop :=
  ∀ token gap, (token, gap) ∈ layout →
    Lexeme dialect token.kind token.lexeme.toList ∧ ∀ c ∈ gap, isBlank c

/-- Whether no token runs into what stands behind it. -/
def admissible : Layout → Bool
  | [] => true
  | (token, gap) :: later =>
    endsBefore token.kind token.lexeme.toList (gap ++ text later).head? && admissible later

end Layout

end ExprScan
