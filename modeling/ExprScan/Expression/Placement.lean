import ExprScan.Expression.Reading

/-! Where tokens can stand in an expression without parentheses. Operands and operators take turns, so
the index of a token tells which of them it must be. -/
namespace ExprScan

/-- Whether a token of this kind can stand at an index: an operand at an even one, an operator at an
odd one. -/
def Kind.standsAt (kind : Kind) (index : Nat) : Bool :=
  if index % 2 = 0 then kind.isOperand else kind = .operator

/-- Tokens cannot go on at this index: they end there, or the token there cannot stand there. -/
def BreakAt (tokens : List Token) (index : Nat) : Prop :=
  index = tokens.length ∨ ∃ token, tokens[index]? = some token ∧ ¬ token.kind.standsAt index

end ExprScan
