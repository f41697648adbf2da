import ExprScan.Expression.Cursor

/-! Reading an expression from tokens. An expression is terms with operators between them. A term is
an operand, or an expression in parentheses. Every operator may stand between terms, the
parentheses included, and what follows the expression is left alone. -/
namespace ExprScan

def Kind.isOperand : Kind → Bool
  | .int | .float | .identifier | .string => true
  | .keyword | .operator | .comment => false

inductive Step where
  | term (lexeme : String)
  | operator (lexeme : String)
  | openParenthesis
  | closeParenthesis
deriving DecidableEq, Repr

def Step.describe : Step → String
  | .term lexeme => "Term: " ++ lexeme
  | .operator lexeme => "Operator: " ++ lexeme
  | .openParenthesis => "Open parenthesis"
  | .closeParenthesis => "Close parenthesis"

inductive Verdict where
  | accepted
  | rejected (failure : Failure)
deriving DecidableEq, Repr

/-- What came of reading from `start` on: the steps in order, the verdict, and the place where the
reading stopped, which is never before `start`. -/
structure Reading (start : Cursor) where
  steps : List Step
  verdict : Verdict
  cursor : Cursor
  forward : cursor.unread.length ≤ start.unread.length

namespace Reading

def stop (start : Cursor) (verdict : Verdict) : Reading start := ⟨[], verdict, start, Nat.le_refl _⟩

/-- Puts steps from `start` in front of a reading from further on. -/
def follow {start after : Cursor} (steps : List Step)
    (h : after.unread.length ≤ start.unread.length) (reading : Reading after) : Reading start :=
  ⟨steps ++ reading.steps, reading.verdict, reading.cursor, Nat.le_trans reading.forward h⟩

/-- Goes on where an accepted reading has stopped. A rejected one stands as it is. -/
def andThen {start : Cursor} (first : Reading start)
    (next : (cursor : Cursor) → cursor.unread.length ≤ start.unread.length → Reading cursor) :
    Reading start :=
  match first.verdict with
  | .accepted => (next first.cursor first.forward).follow first.steps first.forward
  | .rejected _ => first

def parenthesisEnd (start : Cursor) : Reading start :=
  match h : start.expect ")" with
  | (.ok _, after) => (stop after .accepted).follow [.closeParenthesis] (by
      have := start.length_expect_le ")"; rwa [h] at this)
  | (.error reason, after) => (stop after (.rejected ⟨.parenthesisEnd, reason⟩)).follow [] (by
      have := start.length_expect_le ")"; rwa [h] at this)

mutual

/-- Reads a term. A token that starts none is read as well. -/
def term (start : Cursor) : Reading start :=
  match h : start.next? with
  | none => stop start (.rejected ⟨.term, .unexpectedEnd⟩)
  | some (token, after) =>
    have shorter : after.unread.length < start.unread.length := Cursor.length_lt_of_next? h
    if token.kind.isOperand then
      (stop after .accepted).follow [.term token.lexeme] (Nat.le_of_lt shorter)
    else if token.is .operator "(" then
      ((expression after).andThen fun inside _ => parenthesisEnd inside).follow
        [.openParenthesis] (Nat.le_of_lt shorter)
    else (stop after (.rejected ⟨.term, .unexpectedToken token⟩)).follow [] (Nat.le_of_lt shorter)
termination_by 3 * start.unread.length

/-- Reads a term and then all operators that follow, each with its term. -/
def expression (start : Cursor) : Reading start :=
  (term start).andThen fun after _ => operations after
termination_by 3 * start.unread.length + 2

/-- Reads operators, each with the term behind it, as long as there is one. -/
def operations (start : Cursor) : Reading start :=
  match h : start.accept? .operator with
  | none => stop start .accepted
  | some (token, after) =>
    have shorter : after.unread.length < start.unread.length :=
      Cursor.length_lt_of_next? (Cursor.next?_of_accept? h).1
    ((term after).andThen fun behind _ => operations behind).follow
      [.operator token.lexeme] (Nat.le_of_lt shorter)
termination_by 3 * start.unread.length + 1

end

end Reading

def recognize (tokens : List Token) : Reading (Cursor.start tokens) :=
  Reading.expression (Cursor.start tokens)

end ExprScan
