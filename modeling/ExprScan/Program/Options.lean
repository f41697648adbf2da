import ExprScan.Report.Record
import ExprScan.Token.Keyword

/-! The command line: what a run is asked to do, and which arguments ask for nothing sensible. -/
namespace ExprScan

structure Options where
  file? : Option String := none
  expression? : Option String := none
  noPrintKeyword : Bool := false
  diagnostics : Bool := false
  quiet : Bool := false
  verbosity : Nat := 0
deriving DecidableEq, Repr

namespace Options

def dialect (options : Options) : Dialect := ⟨!options.noPrintKeyword⟩

/-- Quiet runs keep no log. The others keep as much of it as their verbosity allows. -/
def logs (options : Options) (level : Level) : Bool :=
  !options.quiet && level.verbosity ≤ options.verbosity

end Options

inductive UsageError where
  | unknownArgument
  | invalidValue
  | argumentConflict
  | tooManyValues
  | helpRequested
deriving DecidableEq, Repr

inductive Flag where
  | diagnostics
  | quiet
  | noPrintKeyword
  | verbose
  | help
deriving DecidableEq, Repr

inductive Switch where
  | flag (flag : Flag)
  | expression
deriving DecidableEq, Repr

namespace Switch

def ofName? : String → Option Switch
  | "diagnostics" => some (.flag .diagnostics)
  | "quiet" => some (.flag .quiet)
  | "no-print-keyword" => some (.flag .noPrintKeyword)
  | "verbose" => some (.flag .verbose)
  | "help" => some (.flag .help)
  | "expr" => some .expression
  | _ => none

def ofLetter? : Char → Option Switch
  | 'd' => some (.flag .diagnostics)
  | 'q' => some (.flag .quiet)
  | 'v' => some (.flag .verbose)
  | 'h' => some (.flag .help)
  | 'e' => some .expression
  | _ => none

end Switch

inductive Argument where
  | escape
  | long (name : String) (value? : Option String)
  | short (letters : List Char)
  | plain (text : String)
deriving DecidableEq, Repr

/-- Two dashes start a name and one dash starts letters. A dash alone is a plain text. -/
def Argument.ofString (text : String) : Argument :=
  match text.toList with
  | ['-', '-'] => .escape
  | '-' :: '-' :: body =>
    .long (String.ofList (body.takeWhile (· ≠ '=')))
      (match body.dropWhile (· ≠ '=') with
        | [] => none
        | _ :: value => some (String.ofList value))
  | '-' :: letter :: letters => .short (letter :: letters)
  | _ => .plain text

/-- What the arguments so far have named but not yet settled: it counts when the next one is read. -/
inductive Pending where
  | nothing
  | expression (value? : Option String)
  | file (path : String)
deriving DecidableEq, Repr

/-- The state between two arguments. -/
structure CommandLine where
  options : Options := {}
  pending : Pending := .nothing
  escaped : Bool := false
deriving DecidableEq, Repr

namespace CommandLine

def settle (line : CommandLine) : Except UsageError Options :=
  match line.pending with
  | .nothing => .ok line.options
  | .expression none => .error .invalidValue
  | .expression (some value) =>
    if line.options.expression?.isSome then .error .argumentConflict
    else .ok { line.options with expression? := some value }
  | .file path =>
    if path = "" then .error .invalidValue else .ok { line.options with file? := some path }

/-- Only `verbose` may be repeated, and it counts no further than 255. -/
def raise (options : Options) : Flag → Except UsageError Options
  | .diagnostics =>
    if options.diagnostics then .error .argumentConflict
    else .ok { options with diagnostics := true }
  | .quiet =>
    if options.quiet then .error .argumentConflict else .ok { options with quiet := true }
  | .noPrintKeyword =>
    if options.noPrintKeyword then .error .argumentConflict
    else .ok { options with noPrintKeyword := true }
  | .verbose => .ok { options with verbosity := min (options.verbosity + 1) 255 }
  | .help => .error .helpRequested

def flag (line : CommandLine) (flag : Flag) : Except UsageError CommandLine := do
  let options ← line.settle
  let options ← raise options flag
  return { line with options, pending := .nothing }

def await (line : CommandLine) (pending : Pending) : Except UsageError CommandLine := do
  let options ← line.settle
  return { line with options, pending }

def long (line : CommandLine) (name : String) (value? : Option String) :
    Except UsageError CommandLine :=
  match Switch.ofName? name, value? with
  | none, _ => .error .unknownArgument
  | some (.flag _), some _ => .error .tooManyValues
  | some (.flag flag), none => line.flag flag
  | some .expression, none => line.await (.expression none)
  | some .expression, some value => do
    let line ← line.await (.expression value)
    line.await .nothing

/-- The value in the same argument as the letter that takes it, less an equals sign between. -/
def attachedValue? : List Char → Option String
  | [] => none
  | '=' :: value => some (String.ofList value)
  | value => some (String.ofList value)

/-- Letters in a row. One that takes a value ends the row. -/
def short (line : CommandLine) : List Char → Except UsageError CommandLine
  | [] => .ok line
  | letter :: letters =>
    match Switch.ofLetter? letter with
    | none => .error .unknownArgument
    | some (.flag flag) => do
      let line ← line.flag flag
      line.short letters
    | some .expression =>
      match attachedValue? letters with
      | none => line.await (.expression none)
      | some value => do
        let line ← line.await (.expression value)
        line.await .nothing

def positional (line : CommandLine) (path : String) : Except UsageError CommandLine :=
  match line.pending, line.options.file? with
  | .file _, _ => .error .unknownArgument
  | _, some _ => .error .unknownArgument
  | _, none => line.await (.file path)

/-- Reads one argument. A plain one is the value that an option still waits for, and a path where
none does. After an escape all arguments are paths. -/
def read (line : CommandLine) (text : String) : Except UsageError CommandLine :=
  if line.escaped then line.positional text
  else
    match Argument.ofString text, line.pending with
    | .escape, _ => .ok { line with escaped := true }
    | .long name value?, _ => line.long name value?
    | .short letters, _ => line.short letters
    | .plain text, .expression none => .ok { line with pending := .expression text }
    | .plain text, _ => line.positional text

end CommandLine

/-- The options that arguments ask for. A file and an expression exclude each other. -/
def Options.parse (arguments : List String) : Except UsageError Options := do
  let line ← arguments.foldlM CommandLine.read {}
  let options ← line.settle
  if options.file?.isSome && options.expression?.isSome then throw .argumentConflict
  return options

end ExprScan
