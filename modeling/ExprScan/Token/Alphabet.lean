/-! The characters that words and operators are made of. All of them are ASCII. -/
namespace ExprScan

def isWordStart (c : Char) : Bool := c.isAlpha

theorem isWordStart_iff {c : Char} : isWordStart c ↔
    65 ≤ c.toNat ∧ c.toNat ≤ 90 ∨ 97 ≤ c.toNat ∧ c.toNat ≤ 122 := by
  change (decide (c.val ≥ 65 ∧ c.val ≤ 90) || (decide (c.val ≥ 97) && decide (c.val ≤ 122))) ↔ _
  simp [UInt32.le_iff_toNat_le]

def isWordPart (c : Char) : Bool := c.isAlphanum || c = '_'

def singleOperators : List Char :=
  ['+', '-', '*', '/', '%', '&', '|', '^', '~', '<', '>', '=']

/-- The characters that are read as operators but are none on their own. -/
def otherMarks : List Char :=
  ['!', ':', '?', '.', ',', ';', '(', ')', '[', ']', '\x7b', '\x7d', '@', '#', '\x60']

/-- The pairs of characters that are read together. Two slashes are among them, although a text
that starts with two slashes is a comment. -/
def operatorPairs : List (Char × Char) :=
  [('=', '='), ('!', '='), ('<', '='), ('>', '='), ('/', '/'), ('<', '<'), ('>', '>'), ('*', '*'),
    ('+', '='), ('-', '='), ('*', '='), ('/', '='), ('%', '='), ('&', '='), ('|', '='), ('^', '=')]

def isSingleOperator (c : Char) : Bool := singleOperators.contains c

def isOperatorStart (c : Char) : Bool := isSingleOperator c || otherMarks.contains c

def isOperatorPair (first second : Char) : Bool := operatorPairs.contains (first, second)

theorem isOperatorStart_of_isOperatorPair {first second : Char}
    (h : isOperatorPair first second = true) : isOperatorStart first = true := by
  simp only [isOperatorPair, operatorPairs, List.contains_iff_mem, List.mem_cons, Prod.mk.injEq,
    List.not_mem_nil, or_false] at h
  rcases h with h | h | h | h | h | h | h | h | h | h | h | h | h | h | h | h <;>
    (rw [h.1]; decide)

end ExprScan
