import ExprScan.Scan.Diagnostic
import ExprScan.Text.Blank
import ExprScan.Token.Alphabet
import ExprScan.Token.Keyword

/-! Cutting a text into segments, each of them a token, a fault or a blank. Nothing of the text is
lost: the segments put together are the text. -/
namespace ExprScan

inductive Label where
  | token (kind : Kind)
  | fault (fault : Fault)
  | blank
deriving DecidableEq, Repr

structure Segment where
  label : Label
  text : List Char
deriving DecidableEq, Repr

/-- How a text goes on after its first character: the label of the segment that it starts with, what
belongs to that segment, and what is left. -/
structure Cut where
  label : Label
  more : List Char
  rest : List Char
deriving DecidableEq, Repr

namespace Cut

/-- After a digit: more digits, and then at most one point with the digits behind it. A point makes
a number a float, also when no digit follows. -/
def number (text : List Char) : Cut :=
  match text.dropWhile Char.isDigit with
  | '.' :: after =>
    ⟨.token .float, text.takeWhile Char.isDigit ++ '.' :: after.takeWhile Char.isDigit,
      after.dropWhile Char.isDigit⟩
  | after => ⟨.token .int, text.takeWhile Char.isDigit, after⟩

def word (dialect : Dialect) (first : Char) (text : List Char) : Cut :=
  ⟨.token (dialect.wordKind (String.ofList (first :: text.takeWhile isWordPart))),
    text.takeWhile isWordPart, text.dropWhile isWordPart⟩

/-- Splits a text behind the quote that closes a string. A backslash takes the character that
follows it along, whatever that is. -/
def closeString? : List Char → Option (List Char × List Char)
  | [] => none
  | '"' :: text => some (['"'], text)
  | '\\' :: c :: text => (closeString? text).map fun (body, after) => ('\\' :: c :: body, after)
  | c :: text => (closeString? text).map fun (body, after) => (c :: body, after)

def closeComment? : List Char → Option (List Char × List Char)
  | [] => none
  | '*' :: '/' :: text => some (['*', '/'], text)
  | c :: text => (closeComment? text).map fun (body, after) => (c :: body, after)

/-- After a quote: the rest of a string. One that is never closed is a fault and takes all the
text. -/
def string (text : List Char) : Cut :=
  match closeString? text with
  | some (body, after) => ⟨.token .string, body, after⟩
  | none => ⟨.fault .unterminatedString, text, []⟩

def blockComment (text : List Char) : Cut :=
  match closeComment? text with
  | some (body, after) => ⟨.token .comment, '*' :: body, after⟩
  | none => ⟨.fault .unterminatedComment, '*' :: text, []⟩

/-- After two slashes: a comment up to the end of the line. The newline is no part of it. -/
def lineComment (text : List Char) : Cut :=
  ⟨.token .comment, '/' :: text.takeWhile (· ≠ '\n'), text.dropWhile (· ≠ '\n')⟩

def singleOperator (first : Char) (text : List Char) : Cut :=
  ⟨if isSingleOperator first then .token .operator else .fault .unknownCharacter, [], text⟩

def operator (first : Char) (text : List Char) : Cut :=
  match text with
  | [] => singleOperator first []
  | second :: after =>
    if isOperatorPair first second then ⟨.token .operator, [second], after⟩
    else singleOperator first text

def slash (text : List Char) : Cut :=
  match text with
  | '/' :: after => lineComment after
  | '*' :: after => blockComment after
  | _ => operator '/' text

def skip (first : Char) (text : List Char) : Cut :=
  ⟨if isBlank first then .blank else .fault .unknownCharacter, [], text⟩

/-- Cuts a text that starts with `first` and goes on with `text` behind its first segment. The first
character chooses the kind of the segment, which then reaches as far as its kind allows. -/
def of (dialect : Dialect) (first : Char) (text : List Char) : Cut :=
  if first.isDigit then number text
  else if isWordStart first then word dialect first text
  else if first = '"' then string text
  else if first = '/' then slash text
  else if isOperatorStart first then operator first text
  else skip first text

theorem append_of_closeString? {text body after : List Char}
    (h : closeString? text = some (body, after)) : body ++ after = text := by
  fun_induction closeString? text generalizing body with
  | case1 => simp at h
  | case2 text => cases h; rfl
  | case3 c text ih =>
    obtain ⟨⟨inner, behind⟩, hr, he⟩ := Option.map_eq_some_iff.1 h
    cases he; simp [ih hr]
  | case4 c text _ _ ih =>
    obtain ⟨⟨inner, behind⟩, hr, he⟩ := Option.map_eq_some_iff.1 h
    cases he; simp [ih hr]

theorem append_of_closeComment? {text body after : List Char}
    (h : closeComment? text = some (body, after)) : body ++ after = text := by
  fun_induction closeComment? text generalizing body with
  | case1 => simp at h
  | case2 text => cases h; rfl
  | case3 c text _ ih =>
    obtain ⟨⟨inner, behind⟩, hr, he⟩ := Option.map_eq_some_iff.1 h
    cases he; simp [ih hr]

theorem number_more_append_rest (text : List Char) :
    (number text).more ++ (number text).rest = text := by
  have h := List.takeWhile_append_dropWhile (p := Char.isDigit) (l := text)
  unfold number
  split
  · next after he => rw [he] at h; simpa using h
  · exact h

private theorem string_more_append_rest (text : List Char) :
    (string text).more ++ (string text).rest = text := by
  unfold string
  split
  · next h => exact append_of_closeString? h
  · exact List.append_nil text

private theorem blockComment_more_append_rest (text : List Char) :
    (blockComment text).more ++ (blockComment text).rest = '*' :: text := by
  unfold blockComment
  split
  · next h => simp [append_of_closeComment? h]
  · exact List.append_nil _

private theorem operator_more_append_rest (first : Char) (text : List Char) :
    (operator first text).more ++ (operator first text).rest = text := by
  unfold operator
  split
  · rfl
  · split <;> rfl

private theorem slash_more_append_rest (text : List Char) :
    (slash text).more ++ (slash text).rest = text := by
  unfold slash
  split
  · simp [lineComment]
  · exact blockComment_more_append_rest _
  · exact operator_more_append_rest _ _

/-- A cut loses nothing. -/
theorem of_more_append_rest (dialect : Dialect) (first : Char) (text : List Char) :
    (of dialect first text).more ++ (of dialect first text).rest = text := by
  unfold of
  split
  · exact number_more_append_rest text
  split
  · exact List.takeWhile_append_dropWhile
  split
  · exact string_more_append_rest text
  split
  · exact slash_more_append_rest text
  split
  · exact operator_more_append_rest first text
  · rfl

theorem length_of_rest_le (dialect : Dialect) (first : Char) (text : List Char) :
    (of dialect first text).rest.length ≤ text.length := by
  conv => rhs; rw [← of_more_append_rest dialect first text, List.length_append]
  exact Nat.le_add_left _ _

end Cut

def segments (dialect : Dialect) : List Char → List Segment
  | [] => []
  | first :: text =>
    let cut := Cut.of dialect first text
    ⟨cut.label, first :: cut.more⟩ :: segments dialect cut.rest
termination_by text => text.length
decreasing_by exact Nat.lt_succ_of_le (Cut.length_of_rest_le dialect first text)

/-- The segments put together are the text. -/
theorem flatMap_text_segments (dialect : Dialect) (text : List Char) :
    (segments dialect text).flatMap Segment.text = text := by
  fun_induction segments dialect text with
  | case1 => rfl
  | case2 first text cut ih => simp [ih, cut, Cut.of_more_append_rest]

end ExprScan
