import ExprScan.Text.Reader

/-! A text cut in two, to which a reader comes down when it is forgotten what it has looked at. -/
namespace ExprScan

/-- A text that is cut between two characters. -/
structure Split (text : List Char) where
  consumed : List Char
  rest : List Char
  joined : consumed ++ rest = text
deriving DecidableEq, Repr

namespace Split

variable {text : List Char}

def start (text : List Char) : Split text := ⟨[], text, rfl⟩

def advance (split : Split text) (count : Nat) : Split text :=
  ⟨split.consumed ++ split.rest.take count, split.rest.drop count, by
    rw [List.append_assoc, List.take_append_drop, split.joined]⟩

def place (split : Split text) : Reader := ⟨split.rest, byteSize split.consumed⟩

/-- The answer to a move, and the cut after it. Looking moves nothing. -/
def perform (state : Backtrack (Split text)) : Reader.Move → Reader.Answer × Backtrack (Split text)
  | .next => (.character state.current.rest[0]?, ⟨state.current.advance 1, state.marks⟩)
  | .peek => (.character state.current.rest[0]?, state)
  | .peekSecond => (.character state.current.rest[1]?, state)
  | .accept c =>
    if state.current.rest[0]? = some c then
      (.accepted true, ⟨state.current.advance 1, state.marks⟩)
    else (.accepted false, state)
  | .skipWhile p =>
    let skipped := state.current.rest.takeWhile p
    (.skipped (byteSize skipped), ⟨state.current.advance skipped.length, state.marks⟩)
  | .save =>
    let (depth, after) := state.save
    (.saved depth, after)
  | .restore =>
    let (answer, after) := state.restore
    (.restored answer, after)

def answers (state : Backtrack (Split text)) : List Reader.Move → List (Reader.Answer × Offset)
  | [] => []
  | move :: moves =>
    let (answer, after) := perform state move
    (answer, byteSize after.current.consumed) :: answers after moves

def reach (state : Backtrack (Split text)) (moves : List Reader.Move) : Backtrack (Split text) :=
  moves.foldl (fun state move => (perform state move).2) state

end Split

/-- Moves that take back every mark that they set, and no other. -/
inductive Reader.Balanced : List Reader.Move → Prop where
  | nil : Balanced []
  | move {move : Reader.Move} {moves : List Reader.Move} (save : move ≠ .save)
      (restore : move ≠ .restore) (later : Balanced moves) : Balanced (move :: moves)
  | marked {inner moves : List Reader.Move} (inside : Balanced inner) (later : Balanced moves) :
      Balanced (.save :: (inner ++ .restore :: moves))

end ExprScan
