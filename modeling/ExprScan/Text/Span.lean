import ExprScan.Text.Reader

/-! Ranges of bytes in a text. -/
namespace ExprScan

/-- The bytes from `start` up to, but not including, `stop`. -/
structure Span where
  start : Offset
  stop : Offset
deriving DecidableEq, Repr

namespace Span

def display (span : Span) : String :=
  toString span.start ++ ".." ++ toString span.stop

/-- The number of bytes covered. A span that ends before it starts has none. -/
def length? (span : Span) : Option Nat := span.stop.sub? span.start

def shift (span : Span) (count : Nat) : Span := ⟨span.start + count, span.stop + count⟩

/-- The part of a text that a span covers. Both ends must lie between characters of the text. -/
def slice? (span : Span) (source : String) : Option String := do
  let (_, reader) ← (Reader.ofString source).readTo? span.start
  let (text, _) ← reader.readTo? span.stop
  return String.ofList text

end Span

end ExprScan
