/-! Tokens: pieces of a text together with what they are. -/
namespace ExprScan

inductive Kind where
  | int
  | float
  | identifier
  | keyword
  | operator
  | string
  | comment
deriving DecidableEq, Repr

def Kind.name : Kind → String
  | .int => "INT"
  | .float => "FLOAT"
  | .identifier => "IDENTIFIER"
  | .keyword => "KEYWORD"
  | .operator => "OPERATOR"
  | .string => "STRING"
  | .comment => "COMMENT"

theorem Kind.name_injective {a b : Kind} (h : a.name = b.name) : a = b := by
  revert h; cases a <;> cases b <;> simp [Kind.name]

/-- A kind and the text that was read as it, quotes and comment marks included. -/
structure Token where
  kind : Kind
  lexeme : String
deriving DecidableEq, Repr

namespace Token

def is (token : Token) (kind : Kind) (lexeme : String) : Bool :=
  token.kind = kind && token.lexeme = lexeme

@[simp] theorem is_iff {token : Token} {kind : Kind} {lexeme : String} :
    token.is kind lexeme = true ↔ token = ⟨kind, lexeme⟩ := by
  cases token; simp [is]

/-- The external form of a token. The lexeme stands in it as it is, without escapes. -/
def display (token : Token) : String :=
  "Token\x7btype=" ++ token.kind.name ++ ", value='" ++ token.lexeme ++ "'\x7d"

end Token

end ExprScan
