import ExprScan.Expression.Extent
import ExprScan.Expression.Plain

/-! What is said about the tokens of an expression while they are read. Comments do not count. -/
namespace ExprScan

/-- So many tokens that are no comments are read as part of an expression: those in front of the token
that is rejected, or else those in front of the first one that is left unread. -/
inductive ReadUpTo (tokens : List Token) : Nat → Prop where
  | rejected {failure : Failure} {index : Nat} (rejected : RejectedAt tokens failure index) :
      ReadUpTo tokens (visibleBefore tokens index)
  | unread {index : Nat} (verdict : (recognize tokens).verdict = .accepted)
      (unread : UnreadAt tokens index) (first : ∀ other, UnreadAt tokens other → index ≤ other) :
      ReadUpTo tokens (visibleBefore tokens index)
  | ended (verdict : (recognize tokens).verdict = .accepted)
      (none : ∀ index, ¬ UnreadAt tokens index) :
      ReadUpTo tokens (visibleBefore tokens tokens.length)

/-- A term has to follow: nothing is read yet, or an operator was read last. -/
def TermDue (before : List Token) : Prop := ∀ last ∈ before.getLast?, last.kind = .operator

/-- What is said about a token behind those that are read before it. -/
inductive Told (before : List Token) (token : Token) : String → Prop where
  | term (due : TermDue before) (operand : token.kind.isOperand) :
      Told before token ("Term: " ++ token.lexeme)
  | openParenthesis (due : TermDue before) (opened : token.is .operator "(") :
      Told before token "Open parenthesis"
  | operator (between : ¬ TermDue before) (kind : token.kind = .operator) :
      Told before token ("Operator: " ++ token.lexeme)

end ExprScan
