import ExprScan.Token.Basic

/-! Why tokens are not an expression. -/
namespace ExprScan

inductive Reason where
  | unexpectedToken (token : Token)
  | unexpectedEnd
deriving DecidableEq, Repr

namespace Reason

def display : Reason → String
  | .unexpectedToken token => "syntax error at `" ++ token.lexeme ++ "`"
  | .unexpectedEnd => "syntax error at end of input"

def token? : Reason → Option Token
  | .unexpectedToken token => some token
  | .unexpectedEnd => none

end Reason

inductive Stage where
  | term
  | parenthesisEnd
deriving DecidableEq, Repr

def Stage.display : Stage → String
  | .term => "a term"
  | .parenthesisEnd => "the end of a parenthesised expression"

structure Failure where
  stage : Stage
  reason : Reason
deriving DecidableEq, Repr

namespace Failure

def display (failure : Failure) : String := failure.reason.display

def describe (failure : Failure) : String :=
  failure.display ++ " when parsing " ++ failure.stage.display

def lexeme? (failure : Failure) : Option String := failure.reason.token?.map Token.lexeme

end Failure

end ExprScan
