import ExprScan.Text.Backtrack
import ExprScan.Text.Lookahead
import ExprScan.Text.Offset

/-! Reading a text from left to right while counting the bytes behind. A buffered reader looks ahead
as it reads, and may have taken a character that is not counted yet. -/
namespace ExprScan

/-- A place in a text: the characters from there on, and the bytes before it. -/
structure Reader where
  rest : List Char
  offset : Offset
deriving DecidableEq, Repr

/-- Splits a text after the given number of bytes, which must be the end of a character. -/
def splitAtByte? : Nat → List Char → Option (List Char × List Char)
  | 0, text => some ([], text)
  | _ + 1, [] => none
  | count + 1, c :: text =>
    if c.utf8Size ≤ count + 1 then
      (splitAtByte? (count + 1 - c.utf8Size) text).map fun (before, after) => (c :: before, after)
    else none

namespace Reader

def ofString (source : String) : Reader := ⟨source.toList, 0⟩

def peek? (reader : Reader) : Option Char := reader.rest[0]?

def peekSecond? (reader : Reader) : Option Char := reader.rest[1]?

/-- Reads up to an offset, which must lie ahead, in the text and between two characters. -/
def readTo? (reader : Reader) (target : Offset) : Option (List Char × Reader) := do
  let count ← target.sub? reader.offset
  let (text, rest) ← splitAtByte? count reader.rest
  return (text, ⟨rest, target⟩)

/-- A reader that can look ahead. A character that is only held is not among the bytes behind. -/
structure Buffered where
  characters : Lookahead
  offset : Offset
deriving DecidableEq, Repr

namespace Buffered

def ofString (source : String) : Buffered := ⟨.ofText source.toList, 0⟩

/-- The place in the text at which a reader stands, whether it has looked ahead or not. -/
def place (reader : Buffered) : Reader := ⟨reader.characters.text, reader.offset⟩

/-- Reads one character, if there is one left. The offset behind it must be a word. -/
def next? (reader : Buffered) : Option (Option Char × Buffered) :=
  match reader.characters.read with
  | (none, characters) => some (none, ⟨characters, reader.offset⟩)
  | (some c, characters) => do return (some c, ⟨characters, ← reader.offset.add? c.utf8Size⟩)

def peek (reader : Buffered) : Option Char × Buffered :=
  (reader.characters.look.1, ⟨reader.characters.look.2, reader.offset⟩)

/-- The character behind the next one. Only a copy reads up to it. -/
def peekSecond? (reader : Buffered) : Option Char := reader.characters.read.2.read.1

def accept? (reader : Buffered) (c : Char) : Option (Bool × Buffered) :=
  let (found?, ahead) := reader.peek
  if found? = some c then do return (true, (← ahead.next?).2) else some (false, ahead)

private theorem text_of_next? {reader after : Buffered} {c? : Option Char}
    (h : reader.next? = some (c?, after)) :
    after.characters.text = reader.characters.text.tail := by
  have htail := reader.characters.read_eq.2
  rw [next?] at h
  split at h
  · next he =>
    cases h
    rwa [he] at htail
  · next he =>
    obtain ⟨offset, -, ho⟩ := Option.bind_eq_some_iff.mp h
    cases ho
    rwa [he] at htail

private theorem length_lt_of_peek {reader ahead after : Buffered} {c : Char} {c? : Option Char}
    (hp : reader.peek = (some c, ahead)) (hn : ahead.next? = some (c?, after)) :
    after.characters.text.length < reader.characters.text.length := by
  obtain ⟨hhead, htext⟩ := reader.characters.look_eq
  rw [peek, Prod.mk.injEq] at hp
  obtain ⟨hc, rfl⟩ := hp
  rw [text_of_next? hn, htext, List.length_tail]
  have hne : reader.characters.text ≠ [] := by
    intro hnil
    rw [hnil, hc] at hhead
    cases hhead
  exact Nat.sub_lt (List.length_pos_iff.mpr hne) Nat.one_pos

def advanceWhile? (p : Char → Bool) (reader : Buffered) : Option Buffered :=
  match _ : reader.peek with
  | (none, ahead) => some ahead
  | (some c, ahead) =>
    if p c then
      match _ : ahead.next? with
      | none => none
      | some (_, after) => advanceWhile? p after
    else some ahead
termination_by reader.characters.text.length
decreasing_by exact length_lt_of_peek ‹_› ‹_›

def skipWhile? (reader : Buffered) (p : Char → Bool) : Option (Nat × Buffered) := do
  let after ← reader.advanceWhile? p
  return (← after.offset.sub? reader.offset, after)

end Buffered

inductive Move where
  | next
  | peek
  | peekSecond
  | accept (c : Char)
  | skipWhile (p : Char → Bool)
  | save
  | restore

inductive Answer where
  | character (c? : Option Char)
  | accepted (answer : Bool)
  | skipped (bytes : Nat)
  | saved (depth : Nat)
  | restored (answer : Bool)
deriving DecidableEq, Repr

/-- The answer to a move, and the reader after it. There is none where an offset is no word. -/
def perform? (state : Backtrack Buffered) : Move → Option (Answer × Backtrack Buffered)
  | .next => do
    let (c?, after) ← state.current.next?
    return (.character c?, ⟨after, state.marks⟩)
  | .peek =>
    let (c?, after) := state.current.peek
    some (.character c?, ⟨after, state.marks⟩)
  | .peekSecond => some (.character state.current.peekSecond?, state)
  | .accept c => do
    let (answer, after) ← state.current.accept? c
    return (.accepted answer, ⟨after, state.marks⟩)
  | .skipWhile p => do
    let (bytes, after) ← state.current.skipWhile? p
    return (.skipped bytes, ⟨after, state.marks⟩)
  | .save =>
    let (depth, after) := state.save
    some (.saved depth, after)
  | .restore =>
    let (answer, after) := state.restore
    some (.restored answer, after)

/-- The answers to a list of moves, each with the offset after it. They end where a move has none. -/
def answers (state : Backtrack Buffered) : List Move → List (Answer × Offset)
  | [] => []
  | move :: moves =>
    match perform? state move with
    | none => []
    | some (answer, after) => (answer, after.current.offset) :: answers after moves

def reach? (state : Backtrack Buffered) (moves : List Move) : Option (Backtrack Buffered) :=
  moves.foldlM (fun state move => (perform? state move).map Prod.snd) state

end Reader

end ExprScan
