/-! Characters that can be looked at before they are read. Looking takes the next character out of
what is left and holds it until it is read. -/
namespace ExprScan

/-- Characters to be read. The next one may be held already. If the end is held, nothing is left. -/
structure Lookahead where
  held : Option (Option Char)
  later : List Char
  ended : held = some none → later = []
deriving DecidableEq, Repr

namespace Lookahead

def ofText (text : List Char) : Lookahead := ⟨none, text, by simp⟩

def text (characters : Lookahead) : List Char :=
  match characters.held with
  | some (some c) => c :: characters.later
  | _ => characters.later

def read (characters : Lookahead) : Option Char × Lookahead :=
  match characters.held with
  | some c? => (c?, ofText characters.later)
  | none => (characters.later.head?, ofText characters.later.tail)

/-- Holds the next character, or the end. -/
def look (characters : Lookahead) : Option Char × Lookahead :=
  match characters.held with
  | some c? => (c?, characters)
  | none =>
    (characters.later.head?,
      ⟨some characters.later.head?, characters.later.tail, by simp +contextual⟩)

theorem read_eq (characters : Lookahead) : characters.read.1 = characters.text.head? ∧
    characters.read.2.text = characters.text.tail := by
  obtain ⟨_ | _ | c, later, ended⟩ := characters
  · exact ⟨rfl, rfl⟩
  · simp [read, text, ofText, ended]
  · exact ⟨rfl, rfl⟩

theorem look_eq (characters : Lookahead) : characters.look.1 = characters.text.head? ∧
    characters.look.2.text = characters.text := by
  obtain ⟨_ | _ | c, later, ended⟩ := characters
  · cases later <;> exact ⟨rfl, rfl⟩
  · simp [look, text, ended]
  · exact ⟨rfl, rfl⟩

end Lookahead

end ExprScan
