import ExprScan.Report.Record

/-! A scanner that goes through a text once and finds the end of each token as it reads. It keeps a
byte offset and takes lexemes out of the text by their bytes. There is no answer where an offset is
no word or a slice is out of bounds. A run is a chain of rounds. -/
namespace ExprScan

namespace Reader

/-- Reads one character, if there is one left. The offset behind it must be a word. -/
def advance? (reader : Reader) : Option (Option Char × Reader) :=
  match reader.rest with
  | [] => some (none, reader)
  | c :: rest => do return (some c, ⟨rest, ← reader.offset.add? c.utf8Size⟩)

def advanceIf? (reader : Reader) (c : Char) : Option (Bool × Reader) :=
  if reader.peek? = some c then do return (true, (← reader.advance?).2) else some (false, reader)

def advanceWhile? (p : Char → Bool) : List Char → Offset → Option Reader
  | [], offset => some ⟨[], offset⟩
  | c :: rest, offset =>
    if p c then do advanceWhile? p rest (← offset.add? c.utf8Size) else some ⟨c :: rest, offset⟩

def countWhile? (p : Char → Bool) (reader : Reader) : Option (Nat × Reader) := do
  let after ← advanceWhile? p reader.rest reader.offset
  return (← after.offset.sub? reader.offset, after)

def stringEnd? : List Char → Offset → Option (Bool × Reader)
  | [], offset => some (false, ⟨[], offset⟩)
  | '"' :: rest, offset => do return (true, ⟨rest, ← offset.add? '"'.utf8Size⟩)
  | '\\' :: c :: rest, offset => do
    let offset ← offset.add? '\\'.utf8Size
    stringEnd? rest (← offset.add? c.utf8Size)
  | c :: rest, offset => do stringEnd? rest (← offset.add? c.utf8Size)

def commentEnd? : List Char → Offset → Option (Bool × Reader)
  | [], offset => some (false, ⟨[], offset⟩)
  | '*' :: '/' :: rest, offset => do
    let offset ← offset.add? '*'.utf8Size
    return (true, ⟨rest, ← offset.add? '/'.utf8Size⟩)
  | c :: rest, offset => do commentEnd? rest (← offset.add? c.utf8Size)

end Reader

/-- A scanner at work: what it reads, where it stands, and what it has found and said so far. -/
structure Scanner where
  source : String
  dialect : Dialect
  reader : Reader
  tokens : List Token := []
  diagnostics : List Diagnostic := []
  records : List Record := []
deriving DecidableEq, Repr

namespace Scanner

def start (dialect : Dialect) (source : String) : Scanner :=
  { source, dialect, reader := .ofString source }

def moveTo (scanner : Scanner) (reader : Reader) : Scanner := { scanner with reader }

def lexeme? (scanner : Scanner) (start : Offset) : Option String :=
  Span.slice? ⟨start, scanner.reader.offset⟩ scanner.source

def emit? (scanner : Scanner) (kind : Kind) (start : Offset) : Option Scanner := do
  let token : Token := ⟨kind, ← scanner.lexeme? start⟩
  return { scanner with
    tokens := scanner.tokens ++ [token]
    records := scanner.records ++ [.log .trace token.display] }

def report (scanner : Scanner) (fault : Fault) (start : Offset) : Scanner :=
  let diagnostic : Diagnostic := ⟨fault, ⟨start, scanner.reader.offset⟩⟩
  { scanner with
    diagnostics := scanner.diagnostics ++ [diagnostic]
    records := scanner.records ++ [.log .debug diagnostic.display] }

def number? (scanner : Scanner) (start : Offset) : Option Scanner := do
  let (_, reader) ← scanner.reader.countWhile? Char.isDigit
  let (point, reader) ← reader.advanceIf? '.'
  if point then
    let (_, reader) ← reader.countWhile? Char.isDigit
    (scanner.moveTo reader).emit? .float start
  else (scanner.moveTo reader).emit? .int start

def word? (scanner : Scanner) (start : Offset) : Option Scanner := do
  let (_, reader) ← scanner.reader.countWhile? isWordPart
  let scanner := scanner.moveTo reader
  let word ← scanner.lexeme? start
  scanner.emit? (scanner.dialect.wordKind word) start

def string? (scanner : Scanner) (start : Offset) : Option Scanner := do
  let (_, reader) ← scanner.reader.advanceIf? '"'
  let (closed, reader) ← Reader.stringEnd? reader.rest reader.offset
  let scanner := scanner.moveTo reader
  if closed then scanner.emit? .string start else return scanner.report .unterminatedString start

def lineComment? (scanner : Scanner) (start : Offset) : Option Scanner := do
  let (_, reader) ← scanner.reader.countWhile? (· ≠ '\n')
  (scanner.moveTo reader).emit? .comment start

def blockComment? (scanner : Scanner) (start : Offset) : Option Scanner := do
  let (_, reader) ← scanner.reader.advanceIf? '/'
  let (_, reader) ← reader.advanceIf? '*'
  let (closed, reader) ← Reader.commentEnd? reader.rest reader.offset
  let scanner := scanner.moveTo reader
  if closed then scanner.emit? .comment start else return scanner.report .unterminatedComment start

def operator? (scanner : Scanner) (first : Char) (start : Offset) : Option Scanner := do
  let (_, reader) ← scanner.reader.advance?
  if reader.peek?.any (isOperatorPair first) then
    let (_, reader) ← reader.advance?
    (scanner.moveTo reader).emit? .operator start
  else if isSingleOperator first then (scanner.moveTo reader).emit? .operator start
  else return (scanner.moveTo reader).report .unknownCharacter start

def slash? (scanner : Scanner) (start : Offset) : Option Scanner :=
  match scanner.reader.peekSecond? with
  | some '/' => scanner.lineComment? start
  | some '*' => scanner.blockComment? start
  | _ => scanner.operator? '/' start

def skip? (scanner : Scanner) (first : Char) (start : Offset) : Option Scanner := do
  let (_, reader) ← scanner.reader.advance?
  let scanner := scanner.moveTo reader
  return if isBlank first then scanner else scanner.report .unknownCharacter start

def step? (scanner : Scanner) (first : Char) : Option Scanner :=
  let start := scanner.reader.offset
  if first.isDigit then scanner.number? start
  else if isWordStart first then scanner.word? start
  else if first = '"' then scanner.string? start
  else if first = '/' then scanner.slash? start
  else if isOperatorStart first then scanner.operator? first start
  else scanner.skip? first start

def finish (scanner : Scanner) : Scanner :=
  { scanner with records := scanner.records ++
      [.log .debug ("Scanned " ++ toString scanner.tokens.length ++ " tokens (" ++
        toString scanner.diagnostics.length ++ " diagnostics)")] }

/-- One round leads from a scanner to the next. There is none at the end of the text. -/
def Next (scanner after : Scanner) : Prop :=
  ∃ first, scanner.reader.peek? = some first ∧ scanner.step? first = some after

end Scanner

end ExprScan
