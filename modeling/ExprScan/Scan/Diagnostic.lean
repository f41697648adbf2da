import ExprScan.Text.Span

/-! Reports about text that forms no token. -/
namespace ExprScan

inductive Fault where
  | unterminatedString
  | unterminatedComment
  | unknownCharacter
deriving DecidableEq, Repr

def Fault.describe : Fault → String
  | .unterminatedString => "Unterminated string literal"
  | .unterminatedComment => "Unterminated block comment"
  | .unknownCharacter => "Unknown character"

structure Diagnostic where
  fault : Fault
  span : Span
deriving DecidableEq, Repr

namespace Diagnostic

def describe (diagnostic : Diagnostic) : String := diagnostic.fault.describe

def display (diagnostic : Diagnostic) : String :=
  diagnostic.describe ++ " at " ++ diagnostic.span.display

def length? (diagnostic : Diagnostic) : Option Nat := diagnostic.span.length?

def shift (diagnostic : Diagnostic) (count : Nat) : Diagnostic :=
  ⟨diagnostic.fault, diagnostic.span.shift count⟩

end Diagnostic

end ExprScan
