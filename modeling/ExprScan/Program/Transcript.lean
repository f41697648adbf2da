import ExprScan.Program.Run

/-! What the flags of a run have to do with its records: a run tells less than it could. -/
namespace ExprScan

namespace Scan

/-- What the log says about the tokens, each time with the offset that the token starts at. -/
def traces (scan : Scan) : List (Offset × Record) :=
  scan.placedTokens.map fun (token, span) => (span.start, .log .trace token.display)

def reports (scan : Scan) : List (Offset × Record) :=
  scan.diagnostics.map fun diagnostic => (diagnostic.span.start, .log .debug diagnostic.display)

def summary (scan : Scan) : Record :=
  .log .debug ("Scanned " ++ toString scan.tokens.length ++ " tokens (" ++
    toString scan.diagnostics.length ++ " diagnostics)")

def log (scan : Scan) : List Record := scan.records ++ [.log .info "Scanner finished"]

def rendered (scan : Scan) (source : String) : List Record :=
  scan.diagnostics.map fun diagnostic => .diagnostic (diagnostic.render source)

end Scan

def Reading.log {start : Cursor} (reading : Reading start) : List Record :=
  reading.records ++ [.log .info "Recognizer finished"]

def mergeByOffset (records others : List (Offset × Record)) : List Record :=
  (List.merge records others fun a b => a.1 ≤ b.1).map Prod.snd

namespace Options

/-- The options with all flags set so that nothing is held back. -/
def outspoken (options : Options) : Options :=
  { options with diagnostics := true, quiet := false, verbosity := 3 }

/-- What the flags of a run let through. A quiet run keeps nothing of its log. Another one keeps
information from verbosity 1 on, debugging from 2 and traces from 3. Diagnostics are shown where they
are asked for, and a failure always is. -/
def admits (options : Options) : Record → Bool
  | .log .info _ => !options.quiet && 1 ≤ options.verbosity
  | .log .debug _ => !options.quiet && 2 ≤ options.verbosity
  | .log .trace _ => !options.quiet && 3 ≤ options.verbosity
  | .diagnostic _ => options.diagnostics
  | .failure _ => true

end Options

end ExprScan
