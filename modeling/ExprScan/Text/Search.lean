import ExprScan.Text.Line
import ExprScan.Text.Span

/-! Looking for the line at an offset while going through a text once. The lines on the way have at
least one character, and the end of the text is looked at apart. There is no answer where an offset is
no word or a slice is out of bounds. -/
namespace ExprScan

/-- A text cut behind each of its newlines. Behind a newline at the end there is nothing left. -/
def cutLines : List Char → List (List Char)
  | [] => []
  | c :: text =>
    if c = '\n' then [c] :: cutLines text
    else
      match cutLines text with
      | [] => [[c]]
      | line :: later => (c :: line) :: later

def lastNewline? : List Char → Option Offset
  | [] => none
  | c :: text =>
    match lastNewline? text with
    | some offset => some (c.utf8Size + offset)
    | none => if c = '\n' then some 0 else none

namespace Line

/-- Passes the lines that do not reach beyond `target`. The answer is the first line that does, or else
the offset behind them all. -/
def pass? (target : Offset) (index : Nat) (position : Offset) :
    List (List Char) → Option (Line ⊕ Offset)
  | [] => some (.inr position)
  | text :: later => do
    let stop ← position.add? (byteSize text)
    if target < stop then return .inl ⟨index + 1, ⟨position, stop⟩, text⟩
    else pass? target (index + 1) stop later

def last? (source : String) (stop : Offset) : Option Line := do
  let start ← (lastNewline? source.toList).elim (some 0) (·.add? 1)
  let text ← Span.slice? ⟨start, source.utf8ByteSize⟩ source
  return ⟨source.toList.count '\n' + 1, ⟨start, stop⟩, text.toList⟩

/-- Looks for the line of a text that an offset belongs to. The answer can be that there is none. -/
def search? (source : String) (target : Offset) : Option (Option Line) := do
  match ← pass? target 0 0 (cutLines source.toList) with
  | .inl line => return some line
  | .inr stop => if target = stop then return some (← last? source stop) else return none

end Line

end ExprScan
