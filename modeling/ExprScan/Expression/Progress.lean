import ExprScan.Expression.Plain
import ExprScan.Expression.Reading

/-! How far readings go in a list of tokens, and which readings are made in the course of others. -/
namespace ExprScan

/-- Where a reading leaves the cursor: at the place where it stopped, or behind the comments there,
past which it has looked if it found nothing more to read. -/
def Reading.LeavesAt {start : Cursor} (reading : Reading start) (place : Cursor) : Prop :=
  place = reading.cursor ∨ place = reading.cursor.settle

inductive Call where
  | term (start : Cursor)
  | expression (start : Cursor)
  | operations (start : Cursor)
deriving DecidableEq, Repr

namespace Call

def start : Call → Cursor
  | .term start => start
  | .expression start => start
  | .operations start => start

def reading : (call : Call) → Reading call.start
  | .term start => .term start
  | .expression start => .expression start
  | .operations start => .operations start

/-- One reading is made in the course of another one, which goes on with it or waits for it. -/
inductive MadeBy : Call → Call → Prop where
  | first {start : Cursor} : MadeBy (.term start) (.expression start)
  | rest {start : Cursor} (accepted : (Reading.term start).verdict = .accepted) :
      MadeBy (.operations (Reading.term start).cursor) (.expression start)
  | inside {start after : Cursor} {token : Token} (found : start.next? = some (token, after))
      (opened : token.is .operator "(") : MadeBy (.expression after) (.term start)
  | operand {start after : Cursor} {token : Token}
      (found : start.accept? .operator = some (token, after)) :
      MadeBy (.term after) (.operations start)
  | again {start after : Cursor} {token : Token}
      (found : start.accept? .operator = some (token, after))
      (accepted : (Reading.term after).verdict = .accepted) :
      MadeBy (.operations (Reading.term after).cursor) (.operations start)

end Call

end ExprScan
