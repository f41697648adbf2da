import ExprScan.Scan.Diagnostic
import ExprScan.Text.Search

/-! Showing a diagnostic below the line of the text that it is about. -/
namespace ExprScan

structure Excerpt where
  number : Nat
  text : String
  padding : Nat
  carets : Nat
  message : String
deriving DecidableEq, Repr

namespace Excerpt

/-- A mark has at least one caret. It covers a diagnostic up to the end of its first line. -/
def below? (source : String) (diagnostic : Diagnostic) (line : Line) : Option Excerpt := do
  let before ← Span.slice? ⟨line.span.start, diagnostic.span.start⟩ source
  let text ← diagnostic.span.slice? source
  let marked := text.toList.takeWhile fun c => c ≠ '\n' && c ≠ '\r'
  return ⟨line.number, line.display, before.toList.length, max marked.length 1,
    diagnostic.describe⟩

def of? (source : String) (diagnostic : Diagnostic) : Option Excerpt := do
  let line ← Line.at? source diagnostic.span.start
  below? source diagnostic line

def fill (c : Char) (count : Nat) : String := String.ofList (List.replicate count c)

def render (excerpt : Excerpt) : List String :=
  let gutter := toString excerpt.number
  [gutter ++ "| " ++ excerpt.text,
    fill ' ' gutter.length ++ "| " ++ fill ' ' excerpt.padding ++ fill '^' excerpt.carets ++
      "--- " ++ excerpt.message]

end Excerpt

/-- The lines that show a diagnostic: its excerpt, or its description where there is none. -/
def Diagnostic.render (source : String) (diagnostic : Diagnostic) : List String :=
  match Excerpt.of? source diagnostic with
  | some excerpt => excerpt.render
  | none => [diagnostic.describe]

/-- Shows a diagnostic in one go, below the line that a search with all its checks finds. There is no
answer where a check fails or a slice is out of bounds. -/
def Diagnostic.show? (source : String) (diagnostic : Diagnostic) : Option (List String) := do
  match ← Line.search? source diagnostic.span.start with
  | none => return [diagnostic.describe]
  | some line =>
    let excerpt ← Excerpt.below? source diagnostic line
    return excerpt.render

end ExprScan
