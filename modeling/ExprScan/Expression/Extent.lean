import ExprScan.Expression.Reading

/-! How much of a list of tokens has been read when the verdict on it is found. -/
namespace ExprScan

/-- Two lists have the same tokens up to an index and at that index. -/
def AgreeThrough (tokens others : List Token) (index : Nat) : Prop :=
  ∀ i ≤ index, others[i]? = tokens[i]?

/-- Tokens are rejected at an index: at the token that was read last, or behind all of them. -/
inductive RejectedAt (tokens : List Token) (failure : Failure) : Nat → Prop where
  | token {index : Nat} {token : Token} (verdict : (recognize tokens).verdict = .rejected failure)
      (reason : failure.reason = .unexpectedToken token) (found : tokens[index]? = some token)
      (position : (recognize tokens).cursor.position = index + 1) : RejectedAt tokens failure index
  | ended (verdict : (recognize tokens).verdict = .rejected failure)
      (reason : failure.reason = .unexpectedEnd) : RejectedAt tokens failure tokens.length

/-- A token that is no comment stands at an index behind the place where the reading stopped. -/
def UnreadAt (tokens : List Token) (index : Nat) : Prop :=
  (recognize tokens).cursor.position ≤ index ∧
    ∃ token, tokens[index]? = some token ∧ ¬ token.isComment

end ExprScan
