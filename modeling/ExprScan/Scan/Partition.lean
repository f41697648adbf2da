import ExprScan.Scan.Layout

/-! Lists of segments that come back as they are when their texts are put together and cut again. -/
namespace ExprScan

namespace Segment

/-- Whether a segment stays as it is when the text goes on with the given character, or ends. A
character that forms no token ends like an operator. What is never closed has no end but that of the
text. -/
def endsBefore (segment : Segment) (next : Option Char) : Bool :=
  match segment.label with
  | .token kind => ExprScan.endsBefore kind segment.text next
  | .fault .unknownCharacter => ExprScan.endsBefore .operator segment.text next
  | .fault _ => next.isNone
  | .blank => true

/-- The text of the segment, alone, is cut as that segment. -/
def Whole (dialect : Dialect) (segment : Segment) : Prop :=
  segments dialect segment.text = [segment]

end Segment

/-- Segments that are whole and of which each ends before the text of those behind it. -/
def Partition (dialect : Dialect) : List Segment → Prop
  | [] => True
  | segment :: later => segment.Whole dialect ∧
      segment.endsBefore (later.flatMap Segment.text).head? ∧ Partition dialect later

/-- A token whose own last character closes it, whatever stands behind. -/
def Token.Closed (token : Token) : Prop :=
  token.kind = .string ∨ token.kind = .comment ∧ Lexeme.BlockComment token.lexeme.toList ∨
    token.kind = .operator ∧ token.lexeme.length = 2

end ExprScan
