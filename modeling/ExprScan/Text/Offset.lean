/-! Byte offsets into a text. Characters count as many bytes as their UTF-8 form has. -/
namespace ExprScan

abbrev Offset := Nat

namespace Offset

/-- Offsets are 64-bit words, so all of them lie below this bound. -/
def bound : Nat := UInt64.size

/-- The offset `length` bytes further on, if it is still a word. -/
def add? (offset : Offset) (length : Nat) : Option Offset :=
  if offset + length < bound then some (offset + length) else none

theorem add?_of_lt {offset length : Nat} (h : offset + length < bound) :
    add? offset length = some (offset + length) :=
  if_pos h

def sub? (offset start : Offset) : Option Nat :=
  if start ≤ offset then some (offset - start) else none

inductive Move where
  | add (length : Nat)
  | sub (start : Offset)
  | compare (other : Offset)
deriving DecidableEq, Repr

inductive Answer where
  | offset (offset? : Option Offset)
  | order (order : Ordering)
deriving DecidableEq, Repr

/-- The answer to a move, and the offset after it. A sum or difference that is refused changes
nothing. -/
def perform (offset : Offset) : Move → Answer × Offset
  | .add length => (.offset (offset.add? length), (offset.add? length).getD offset)
  | .sub start => (.offset (offset.sub? start), (offset.sub? start).getD offset)
  | .compare other => (.order (Ord.compare offset other), offset)

def answers (offset : Offset) : List Move → List Answer
  | [] => []
  | move :: moves =>
    let (answer, after) := perform offset move
    answer :: answers after moves

end Offset

/-- The length of the UTF-8 form of a text. -/
def byteSize : List Char → Nat
  | [] => 0
  | c :: text => c.utf8Size + byteSize text

@[simp] theorem byteSize_nil : byteSize [] = 0 := rfl

@[simp] theorem byteSize_cons (c : Char) (text : List Char) :
    byteSize (c :: text) = c.utf8Size + byteSize text := rfl

@[simp] theorem byteSize_append (text more : List Char) :
    byteSize (text ++ more) = byteSize text + byteSize more := by
  induction text with
  | nil => simp
  | cons c text ih => simp [ih, Nat.add_assoc]

theorem byteSize_pos {text : List Char} (h : text ≠ []) : 0 < byteSize text := by
  cases text with
  | nil => exact (h rfl).elim
  | cons c text => exact Nat.add_pos_left c.utf8Size_pos _

end ExprScan
