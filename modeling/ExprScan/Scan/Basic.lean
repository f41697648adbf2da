import ExprScan.Scan.Segment

/-! Scanning a text: its tokens, and reports about everything else in it but blanks. -/
namespace ExprScan

/-- A segment with the bytes of the text that it covers. -/
structure Piece extends Segment where
  span : Span
deriving DecidableEq, Repr

namespace Piece

def token? (piece : Piece) : Option Token :=
  match piece.label with
  | .token kind => some ⟨kind, String.ofList piece.text⟩
  | _ => none

def diagnostic? (piece : Piece) : Option Diagnostic :=
  match piece.label with
  | .fault fault => some ⟨fault, piece.span⟩
  | _ => none

/-- Lays segments out one after the other from an offset on. -/
def place (start : Offset) : List Segment → List Piece
  | [] => []
  | segment :: later =>
    let stop := start + byteSize segment.text
    ⟨segment, ⟨start, stop⟩⟩ :: place stop later

end Piece

structure Scan where
  pieces : List Piece
deriving DecidableEq, Repr

namespace Scan

def ofString (dialect : Dialect) (source : String) : Scan :=
  ⟨Piece.place 0 (segments dialect source.toList)⟩

def tokens (scan : Scan) : List Token := scan.pieces.filterMap Piece.token?

def placedTokens (scan : Scan) : List (Token × Span) :=
  scan.pieces.filterMap fun piece => piece.token?.map (·, piece.span)

def diagnostics (scan : Scan) : List Diagnostic := scan.pieces.filterMap Piece.diagnostic?

end Scan

end ExprScan
