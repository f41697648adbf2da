import ExprScan.Expression.Reading

/-! Readings case by case, in terms of the tokens that are left when comments are taken away. -/
namespace ExprScan

namespace Cursor

variable {cursor after : Cursor} {token : Token} {kind : Kind}

def visible (cursor : Cursor) : List Token := cursor.unread.filter (!·.isComment)

private theorem visible_settle (cursor : Cursor) : cursor.settle.visible = cursor.visible := by
  have hskip (tokens : List Token) : (tokens.dropWhile Token.isComment).filter (!·.isComment) =
      tokens.filter (!·.isComment) := by
    induction tokens with
    | nil => rfl
    | cons token later ih =>
      by_cases h : token.isComment
      · simp [h, ih]
      · simp [h]
  exact hskip cursor.unread

theorem visible_of_next?_none (h : cursor.next? = none) : cursor.visible = [] := by
  rw [← visible_settle, visible]
  rw [next?] at h
  split at h
  · next he => rw [he]; rfl
  · cases h

theorem visible_of_next? (h : cursor.next? = some (token, after)) :
    cursor.visible = token :: after.visible := by
  have hhead := List.head?_dropWhile_not Token.isComment cursor.unread
  rw [← visible_settle, visible]
  rw [next?] at h
  split at h
  · cases h
  · next unread he =>
    cases h
    change cursor.unread.dropWhile Token.isComment = _ at he
    rw [he] at hhead
    rw [settle, he]
    simp only [List.head?_cons] at hhead
    simp [hhead, visible]

theorem kind_ne_of_accept?_none (h : cursor.accept? kind = none)
    (hn : cursor.next? = some (token, after)) : token.kind ≠ kind := by
  simpa [accept?, hn, Option.filter] using h

/-- A token that is not accepted stands ahead, or none does. -/
theorem visible_of_accept?_none (h : cursor.accept? kind = none) :
    cursor.visible = [] ∨ ∃ token later, cursor.visible = token :: later ∧ token.kind ≠ kind := by
  cases hn : cursor.next? with
  | none => exact .inl (visible_of_next?_none hn)
  | some found =>
    obtain ⟨token, after⟩ := found
    exact .inr ⟨token, after.visible, visible_of_next? hn, kind_ne_of_accept?_none h hn⟩

theorem expect_of_none (h : cursor.next? = none) (lexeme : String) :
    cursor.expect lexeme = (.error .unexpectedEnd, cursor) := by
  rw [expect, h]

theorem expect_of_ne_operator (h : cursor.next? = some (token, after))
    (hk : token.kind ≠ .operator) (lexeme : String) :
    cursor.expect lexeme = (.error (.unexpectedToken token), after) := by
  have his : ¬ token.is .operator lexeme := by
    rw [Token.is_iff]
    rintro rfl
    exact hk rfl
  rw [expect, h]
  exact congrArg (·, after) (if_neg his)

end Cursor

namespace Reading

variable {start after : Cursor} {token : Token} {reason : Reason} {failure : Failure}

section andThen

variable {first : Reading start}
  {next : (cursor : Cursor) → cursor.unread.length ≤ start.unread.length → Reading cursor}

theorem andThen_of_accepted (h : first.verdict = .accepted) :
    first.andThen next = (next first.cursor first.forward).follow first.steps first.forward := by
  simp [andThen, h]

theorem andThen_of_rejected (h : first.verdict = .rejected failure) :
    first.andThen next = first := by
  simp [andThen, h]

end andThen

theorem parenthesisEnd_of_error (h : start.expect ")" = (.error reason, after)) :
    (parenthesisEnd start).steps = [] ∧
      (parenthesisEnd start).verdict = .rejected ⟨.parenthesisEnd, reason⟩ ∧
      (parenthesisEnd start).cursor = after := by
  rw [parenthesisEnd]
  split
  · next he =>
    rw [h] at he
    cases he
  · next he =>
    rw [h] at he
    cases he
    exact ⟨rfl, rfl, rfl⟩

theorem term_of_none (h : start.next? = none) :
    term start = stop start (.rejected ⟨.term, .unexpectedEnd⟩) := by
  rw [term]
  split
  · rfl
  · next he => rw [h] at he; cases he

private theorem term_of_some (h : start.next? = some (token, after)) :
    term start =
      if token.kind.isOperand then
        (stop after .accepted).follow [.term token.lexeme]
          (Nat.le_of_lt (Cursor.length_lt_of_next? h))
      else if token.is .operator "(" then
        ((expression after).andThen fun inside _ => parenthesisEnd inside).follow
          [.openParenthesis] (Nat.le_of_lt (Cursor.length_lt_of_next? h))
      else (stop after (.rejected ⟨.term, .unexpectedToken token⟩)).follow []
        (Nat.le_of_lt (Cursor.length_lt_of_next? h)) := by
  rw [term]
  split
  · next he => rw [h] at he; cases he
  · next he =>
    rw [h] at he
    cases he
    rfl

theorem term_of_operand (h : start.next? = some (token, after)) (ho : token.kind.isOperand) :
    term start = (stop after .accepted).follow [.term token.lexeme]
      (Nat.le_of_lt (Cursor.length_lt_of_next? h)) := by
  rw [term_of_some h, if_pos ho]

theorem term_of_open (h : start.next? = some (token, after)) (ho : ¬ token.kind.isOperand)
    (hp : token.is .operator "(") :
    term start = ((expression after).andThen fun inside _ => parenthesisEnd inside).follow
      [.openParenthesis] (Nat.le_of_lt (Cursor.length_lt_of_next? h)) := by
  rw [term_of_some h, if_neg ho, if_pos hp]

theorem term_of_other (h : start.next? = some (token, after)) (ho : ¬ token.kind.isOperand)
    (hp : ¬ token.is .operator "(") :
    term start = (stop after (.rejected ⟨.term, .unexpectedToken token⟩)).follow []
      (Nat.le_of_lt (Cursor.length_lt_of_next? h)) := by
  rw [term_of_some h, if_neg ho, if_neg hp]

theorem operations_of_none (h : start.accept? .operator = none) :
    operations start = stop start .accepted := by
  rw [operations]
  split
  · rfl
  · next he => rw [h] at he; cases he

theorem operations_of_some (h : start.accept? .operator = some (token, after)) :
    operations start = ((term after).andThen fun behind _ => operations behind).follow
      [.operator token.lexeme]
      (Nat.le_of_lt (Cursor.length_lt_of_next? (Cursor.next?_of_accept? h).1)) := by
  rw [operations]
  split
  · next he => rw [h] at he; cases he
  · next he =>
    rw [h] at he
    cases he
    rfl

end Reading

end ExprScan
