import ExprScan.Expression.Cursor
import ExprScan.Scan.Basic

/-! The text of a scan with nothing but blanks between its tokens. -/
namespace ExprScan

def Piece.isIdle (piece : Piece) : Bool :=
  piece.token?.any Token.isComment || piece.diagnostic?.isSome

/-- The text with one space in the place of each comment and of each piece that is reported. -/
def Scan.blanked (scan : Scan) : String :=
  String.ofList (scan.pieces.flatMap fun piece => if piece.isIdle then [' '] else piece.text)

end ExprScan
