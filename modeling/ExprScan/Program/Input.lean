import ExprScan.Program.Options

/-! Where the text of a run comes from, and how that can go wrong. -/
namespace ExprScan

inductive Origin where
  | argument (text : String)
  | file (path : String)
  | standardInput
deriving DecidableEq, Repr

/-- An expression comes before a file, and a file before the standard input. -/
def Options.origin (options : Options) : Origin :=
  match options.expression?, options.file? with
  | some text, _ => .argument text
  | none, some path => .file path
  | none, none => .standardInput

inductive ReadError where
  | notFound
  | isDirectory
  | notUtf8
  | other (cause : String)
deriving DecidableEq, Repr

def ReadError.describe : ReadError → String
  | .notFound => "No such file or directory (os error 2)"
  | .isDirectory => "Is a directory (os error 21)"
  | .notUtf8 => "stream did not contain valid UTF-8"
  | .other cause => cause

def Origin.describe : Origin → String
  | .argument _ => "argument"
  | .file path => path
  | .standardInput => "standard input"

def decodeUtf8 (bytes : ByteArray) : Except ReadError String :=
  match String.fromUTF8? bytes with
  | some text => .ok text
  | none => .error .notUtf8

structure Host (m : Type → Type) where
  file : String → m (Except ReadError ByteArray)
  standardInput : m (Except ReadError ByteArray)

def Origin.read {m : Type → Type} [Monad m] (host : Host m) : Origin → m (Except ReadError String)
  | .argument text => pure (.ok text)
  | .file path => do return (← host.file path).bind decodeUtf8
  | .standardInput => do return (← host.standardInput).bind decodeUtf8

end ExprScan
