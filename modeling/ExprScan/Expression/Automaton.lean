import ExprScan.Expression.Reading

/-! An automaton that reads tokens one by one and keeps no stack. It knows what it waits for and
whether any parenthesis has been opened so far. -/
namespace ExprScan

inductive Expected where
  | term
  | operator
deriving DecidableEq, Repr

structure Automaton where
  expected : Expected
  opened : Bool
deriving DecidableEq, Repr

namespace Automaton

def start : Automaton := ⟨.term, false⟩

def step? (automaton : Automaton) (token : Token) : Option Automaton :=
  match automaton.expected with
  | .term =>
    if token.kind.isOperand then some ⟨.operator, automaton.opened⟩
    else if token.is .operator "(" then some ⟨.term, true⟩
    else none
  | .operator => if token.kind = .operator then some ⟨.term, automaton.opened⟩ else none

/-- The verdict where the automaton cannot go on. -/
def leave (automaton : Automaton) (reason : Reason) : Verdict :=
  match automaton.expected with
  | .term => .rejected ⟨.term, reason⟩
  | .operator => if automaton.opened then .rejected ⟨.parenthesisEnd, reason⟩ else .accepted

def run (automaton : Automaton) : List Token → Verdict
  | [] => automaton.leave .unexpectedEnd
  | token :: later =>
    match automaton.step? token with
    | some next => next.run later
    | none => automaton.leave (.unexpectedToken token)

end Automaton

end ExprScan
