import ExprScan.Text.Span

/-! The lines of a text, and the line that a byte offset belongs to. -/
namespace ExprScan

/-- The lines of a text, each with the newline that ends it. What follows the last newline is a
line too, even when it is empty. -/
def lines : List Char → List (List Char)
  | [] => [[]]
  | c :: text => if c = '\n' then [c] :: lines text else (lines text).modifyHead (c :: ·)

def EndsWithLine (text line : String) : Prop :=
  [line.toList ++ ['\n'], []] <:+ lines text.toList

/-- A line of a text with its number, counted from one, and the bytes it covers. -/
structure Line where
  number : Nat
  span : Span
  text : List Char
deriving DecidableEq, Repr

namespace Line

/-- The line without its line break. Carriage returns are left out wherever they stand. -/
def display (line : Line) : String :=
  String.ofList (line.text.filter fun c => c ≠ '\r' && c ≠ '\n')

/-- Looks for the line at `target` among lines of which the first starts at `start`. The last line
also has the offset at its end. -/
def locate? (target : Offset) (number : Nat) (start : Offset) : List (List Char) → Option Line
  | [] => none
  | text :: later =>
    let line : Line := ⟨number, ⟨start, start + byteSize text⟩, text⟩
    if target < line.span.stop ∨ later = [] ∧ target = line.span.stop then some line
    else locate? target (number + 1) line.span.stop later

/-- The line of a text that an offset belongs to. There is none beyond the end of the text. -/
def at? (source : String) (target : Offset) : Option Line :=
  locate? target 1 0 (lines source.toList)

end Line

end ExprScan
