import ExprScan.Program.Input

/-! A run of the program, from its options to what it prints. -/
namespace ExprScan

structure Outcome where
  code : Nat
  output : List String
  records : List Record
deriving DecidableEq, Repr

namespace Outcome

def unlines (lines : List String) : String := String.join (lines.map (· ++ "\n"))

def stdout (outcome : Outcome) : String := unlines outcome.output

def stderr (outcome : Outcome) : String := unlines (outcome.records.flatMap Record.lines)

def unreadable (origin : Origin) (error : ReadError) : Outcome :=
  ⟨1, [], [.failure ("Error: Failed to read " ++ origin.describe ++ "\n\nCaused by:\n    " ++
    error.describe)]⟩

end Outcome

namespace Verdict

def code : Verdict → Nat
  | .accepted => 0
  | .rejected _ => 1

def success : Verdict → List String
  | .accepted => ["Parsing successful!"]
  | .rejected _ => []

def failure : Verdict → List Record
  | .accepted => []
  | .rejected failure => [.failure failure.display]

end Verdict

namespace Options

/-- Whether a record is kept. Only those of the log can be dropped. -/
def keeps (options : Options) : Record → Bool
  | .log level _ => options.logs level
  | _ => true

def evaluate (options : Options) (source : String) : Outcome :=
  let scan := Scan.ofString options.dialect source
  let reading := recognize scan.tokens
  let shown := if options.diagnostics then scan.diagnostics else []
  let records := scan.records ++ [.log .info "Scanner finished"] ++
    shown.map (fun diagnostic => .diagnostic (diagnostic.render source)) ++
    reading.records ++ [.log .info "Recognizer finished"] ++ reading.verdict.failure
  ⟨reading.verdict.code, scan.tokens.map Token.display ++ reading.verdict.success,
    records.filter options.keeps⟩

def run {m : Type → Type} [Monad m] (host : Host m) (options : Options) : m Outcome := do
  match ← options.origin.read host with
  | .ok source => return options.evaluate source
  | .error error => return .unreadable options.origin error

end Options

end ExprScan
