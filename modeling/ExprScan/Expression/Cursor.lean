import ExprScan.Expression.Failure
import ExprScan.Text.Backtrack

/-! Reading tokens one after the other, as if there were no comments among them. -/
namespace ExprScan

def Token.isComment (token : Token) : Bool := token.kind = .comment

/-- A place in a list of tokens: those from there on, and the number of those before it. -/
structure Cursor where
  unread : List Token
  position : Nat
deriving DecidableEq, Repr

namespace Cursor

def start (tokens : List Token) : Cursor := ⟨tokens, 0⟩

/-- Steps over comments. -/
def settle (cursor : Cursor) : Cursor :=
  ⟨cursor.unread.dropWhile Token.isComment,
    cursor.position + (cursor.unread.takeWhile Token.isComment).length⟩

def peek? (cursor : Cursor) : Option Token := cursor.settle.unread.head?

def next? (cursor : Cursor) : Option (Token × Cursor) :=
  match cursor.settle.unread with
  | [] => none
  | token :: unread => some (token, ⟨unread, cursor.settle.position + 1⟩)

def accept? (cursor : Cursor) (kind : Kind) : Option (Token × Cursor) :=
  cursor.next?.filter fun (token, _) => token.kind = kind

/-- Reads one token, which should be the given operator. Another token is read as well. -/
def expect (cursor : Cursor) (lexeme : String) : Except Reason Token × Cursor :=
  match cursor.next? with
  | none => (.error .unexpectedEnd, cursor)
  | some (token, after) =>
    (if token.is .operator lexeme then .ok token else .error (.unexpectedToken token), after)

theorem length_lt_of_next? {cursor after : Cursor} {token : Token}
    (h : cursor.next? = some (token, after)) : after.unread.length < cursor.unread.length := by
  have hs := (List.dropWhile_suffix (l := cursor.unread) Token.isComment).length_le
  unfold next? settle at h
  split at h
  · cases h
  · next unread he =>
    cases h
    simp only at he
    rw [he] at hs
    exact hs

theorem next?_of_accept? {cursor after : Cursor} {token : Token} {kind : Kind}
    (h : cursor.accept? kind = some (token, after)) :
    cursor.next? = some (token, after) ∧ token.kind = kind := by
  simpa [accept?, Option.filter_eq_some_iff] using h

theorem length_expect_le (cursor : Cursor) (lexeme : String) :
    (cursor.expect lexeme).2.unread.length ≤ cursor.unread.length := by
  unfold expect
  split
  · exact Nat.le_refl _
  · next h => exact Nat.le_of_lt (length_lt_of_next? h)

inductive Move where
  | peek
  | next
  | accept (kind : Kind)
  | expect (lexeme : String)
  | save
  | restore
deriving DecidableEq, Repr

inductive Answer where
  | token (token? : Option Token)
  | refused (reason : Reason)
  | saved (depth : Nat)
  | restored (answer : Bool)
deriving DecidableEq, Repr

/-- The answer to a move, and the cursor after it. A move that looks at a token steps over comments
first, and does not go back to them. -/
def perform (state : Backtrack Cursor) (move : Move) : Answer × Backtrack Cursor :=
  let cursor := state.current.settle
  match move with
  | .peek => (.token cursor.peek?, ⟨cursor, state.marks⟩)
  | .next =>
    match cursor.next? with
    | some (token, after) => (.token token, ⟨after, state.marks⟩)
    | none => (.refused .unexpectedEnd, ⟨cursor, state.marks⟩)
  | .accept kind =>
    match cursor.accept? kind with
    | some (token, after) => (.token token, ⟨after, state.marks⟩)
    | none => (.token none, ⟨cursor, state.marks⟩)
  | .expect lexeme =>
    match cursor.expect lexeme with
    | (.ok token, after) => (.token token, ⟨after, state.marks⟩)
    | (.error reason, after) => (.refused reason, ⟨after, state.marks⟩)
  | .save =>
    let (depth, after) := state.save
    (.saved depth, after)
  | .restore =>
    let (answer, after) := state.restore
    (.restored answer, after)

def answers (state : Backtrack Cursor) : List Move → List Answer
  | [] => []
  | move :: moves =>
    let (answer, after) := perform state move
    answer :: answers after moves

def reach (state : Backtrack Cursor) : List Move → Backtrack Cursor
  | [] => state
  | move :: moves => reach (perform state move).2 moves

end Cursor

end ExprScan
