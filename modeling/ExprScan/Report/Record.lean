import ExprScan.Expression.Reading
import ExprScan.Report.Excerpt
import ExprScan.Scan.Basic

/-! What a run says about itself, record by record. -/
namespace ExprScan

inductive Level where
  | info
  | debug
  | trace
deriving DecidableEq, Repr

namespace Level

def name : Level → String
  | .info => "INFO"
  | .debug => "DEBUG"
  | .trace => "TRACE"

/-- The least verbosity at which a level is shown. -/
def verbosity : Level → Nat
  | .info => 1
  | .debug => 2
  | .trace => 3

end Level

/-- Something said once: a line of the log, a diagnostic with the lines that show it, or the failure
that a run ends with. -/
inductive Record where
  | log (level : Level) (message : String)
  | diagnostic (lines : List String)
  | failure (text : String)
deriving DecidableEq, Repr

namespace Record

def lines : Record → List String
  | .log level message => [level.name ++ " - " ++ message]
  | .diagnostic lines => lines
  | .failure text => [text]

end Record

/-- Tokens are traced. Reports are for debugging. Blanks are passed over. -/
def Piece.record? (piece : Piece) : Option Record :=
  match piece.token?, piece.diagnostic? with
  | some token, _ => some (.log .trace token.display)
  | none, some diagnostic => some (.log .debug diagnostic.display)
  | none, none => none

def Scan.records (scan : Scan) : List Record :=
  scan.pieces.filterMap Piece.record? ++
    [.log .debug ("Scanned " ++ toString scan.tokens.length ++ " tokens (" ++
      toString scan.diagnostics.length ++ " diagnostics)")]

def Verdict.summary (count : Nat) : Verdict → String
  | .accepted => "Accepted " ++ toString count ++ " tokens"
  | .rejected failure => "Rejected: " ++ failure.describe

def Reading.records {start : Cursor} (reading : Reading start) : List Record :=
  reading.steps.map (fun step => .log .trace step.describe) ++
    [.log .debug (reading.verdict.summary start.unread.length)]

end ExprScan
