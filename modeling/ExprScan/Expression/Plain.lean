import ExprScan.Expression.Cursor

/-! A list of tokens read by index, to which a cursor comes down when comments are taken away. -/
namespace ExprScan

def visibleBefore (tokens : List Token) (index : Nat) : Nat :=
  ((tokens.take index).filter (!·.isComment)).length

namespace Cursor

/-- A cursor stands in a list of tokens, or behind all of them. -/
structure Within (tokens : List Token) (cursor : Cursor) : Prop where
  unread : cursor.unread = tokens.drop cursor.position
  position_le : cursor.position ≤ tokens.length

structure Reads (start : Cursor) (read : List Token) (after : Cursor) : Prop where
  unread : start.unread = read ++ after.unread
  position : after.position = start.position + read.length

/-- The index of a cursor among the tokens that are no comments. -/
def index (tokens : List Token) (cursor : Cursor) : Nat := visibleBefore tokens cursor.position

end Cursor

namespace Plain

/-- The answer to a move in a list of tokens, and the index after it. A token that is read is left
behind. One that is looked at or has another kind than the accepted one is not. -/
def perform (tokens : List Token) (state : Backtrack Nat) :
    Cursor.Move → Cursor.Answer × Backtrack Nat
  | .peek => (.token tokens[state.current]?, state)
  | .next =>
    match tokens[state.current]? with
    | some token => (.token token, ⟨state.current + 1, state.marks⟩)
    | none => (.refused .unexpectedEnd, state)
  | .accept kind =>
    match tokens[state.current]? with
    | some token =>
      if token.kind = kind then (.token token, ⟨state.current + 1, state.marks⟩)
      else (.token none, state)
    | none => (.token none, state)
  | .expect lexeme =>
    match tokens[state.current]? with
    | some token =>
      (if token.is .operator lexeme then .token token else .refused (.unexpectedToken token),
        ⟨state.current + 1, state.marks⟩)
    | none => (.refused .unexpectedEnd, state)
  | .save =>
    let (depth, after) := state.save
    (.saved depth, after)
  | .restore =>
    let (answer, after) := state.restore
    (.restored answer, after)

def answers (tokens : List Token) (state : Backtrack Nat) : List Cursor.Move → List Cursor.Answer
  | [] => []
  | move :: moves =>
    let (answer, after) := perform tokens state move
    answer :: answers tokens after moves

end Plain

end ExprScan
