/-! Quotes in a string, told from the backslashes in front of them. -/
namespace ExprScan

def trailingBackslashes (text : List Char) : Nat := (text.reverse.takeWhile (· = '\\')).length

/-- A quote that is not escaped stands at an index: the backslashes right in front of it are even in
number. -/
def PlainQuoteAt (text : List Char) (index : Nat) : Prop :=
  text[index]? = some '"' ∧ trailingBackslashes (text.take index) % 2 = 0

/-- A string that starts with the first character can close at an index. -/
def ClosesAt (text : List Char) (index : Nat) : Prop := 1 ≤ index ∧ PlainQuoteAt text index

instance (text : List Char) (index : Nat) : Decidable (ClosesAt text index) :=
  inferInstanceAs (Decidable (_ ∧ _ ∧ _))

end ExprScan
