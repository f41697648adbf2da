import ExprScan.Program.Run

/-! The command `exprscan`. -/
namespace ExprScan

def usage : List String :=
  ["Usage: exprscan [OPTIONS] [FILE]",
    "",
    "Scans a text and checks whether it is a simple expression",
    "",
    "Options:",
    "  -e, --expr <EXPR>       Scan the given text instead of a file",
    "      --no-print-keyword  Treat print as an ordinary identifier",
    "  -d, --diagnostics       Show skipped characters and unterminated literals",
    "  -v, --verbose           Log more (may be repeated)",
    "  -q, --quiet             Log nothing",
    "  -h, --help              Print this help"]

def UsageError.message : UsageError → String
  | .unknownArgument => "error: unexpected argument"
  | .invalidValue => "error: a value is required"
  | .argumentConflict => "error: an argument cannot be used with another one"
  | .tooManyValues => "error: an argument takes no value"
  | .helpRequested => ""

/-- The cause of a failed read in the words of the operating system. -/
def ReadError.ofSystem : IO.Error → ReadError
  | .noFileOrDirectory .. => .notFound
  | .inappropriateType _ 21 _ => .isDirectory
  | error => .other (toString error)

def attempt (action : IO ByteArray) : IO (Except ReadError ByteArray) := do
  try return .ok (← action)
  catch error => return .error (.ofSystem error)

def Host.system : Host IO where
  file path := attempt (IO.FS.readBinFile path)
  standardInput := attempt do (← IO.getStdin).readBinToEnd

def command (arguments : List String) : IO UInt32 := do
  match Options.parse arguments with
  | .error .helpRequested =>
    IO.print (Outcome.unlines usage)
    return 0
  | .error error =>
    IO.eprintln error.message
    return 2
  | .ok options =>
    let outcome ← options.run Host.system
    IO.print outcome.stdout
    IO.eprint outcome.stderr
    return outcome.code.toUInt32

end ExprScan

def main (arguments : List String) : IO UInt32 := ExprScan.command arguments
