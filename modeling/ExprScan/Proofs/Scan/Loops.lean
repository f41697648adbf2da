import ExprScan.Scan.Scanner

/-! What a checked reader reads. As long as the end of the text is a word, no check fails and each
loop stops where the corresponding cut ends. -/
namespace ExprScan.Reader

/-- No offset up to the end of the text overflows. -/
def Fits (reader : Reader) : Prop := reader.offset + byteSize reader.rest < Offset.bound

variable {c : Char} {text rest : List Char} {offset : Nat}

theorem fits_mk : Fits ⟨text, offset⟩ ↔ offset + byteSize text < Offset.bound := Iff.rfl

theorem Fits.tail (h : Fits ⟨c :: rest, offset⟩) : Fits ⟨rest, offset + c.utf8Size⟩ := by
  rw [fits_mk, byteSize_cons] at h
  rw [fits_mk]
  omega

theorem Fits.dropWhile (p : Char → Bool) (h : Fits ⟨text, offset⟩) :
    Fits ⟨text.dropWhile p, offset + byteSize (text.takeWhile p)⟩ := by
  have hsplit := congrArg byteSize (List.takeWhile_append_dropWhile (p := p) (l := text))
  rw [byteSize_append] at hsplit
  rw [fits_mk] at h ⊢
  omega

private theorem add?_size (h : Fits ⟨c :: rest, offset⟩) :
    Offset.add? offset c.utf8Size = some (offset + c.utf8Size) := by
  have hlater := fits_mk.mp h.tail
  exact Offset.add?_of_lt (Nat.lt_of_le_of_lt (Nat.le_add_right _ _) hlater)

theorem advance?_cons (h : Fits ⟨c :: rest, offset⟩) :
    advance? ⟨c :: rest, offset⟩ = some (some c, ⟨rest, offset + c.utf8Size⟩) := by
  simp [advance?, add?_size h]

theorem advanceIf?_self (h : Fits ⟨c :: rest, offset⟩) :
    advanceIf? ⟨c :: rest, offset⟩ c = some (true, ⟨rest, offset + c.utf8Size⟩) := by
  simp [advanceIf?, peek?, advance?_cons h]

theorem advanceIf?_other (h : text.head? ≠ some c) :
    advanceIf? ⟨text, offset⟩ c = some (false, ⟨text, offset⟩) := by
  rw [List.head?_eq_getElem?] at h
  simp [advanceIf?, peek?, h]

private theorem advanceWhile?_eq (p : Char → Bool) (h : Fits ⟨text, offset⟩) :
    advanceWhile? p text offset =
      some ⟨text.dropWhile p, offset + byteSize (text.takeWhile p)⟩ := by
  induction text generalizing offset with
  | nil => rfl
  | cons c rest ih =>
    rw [advanceWhile?]
    by_cases hp : p c
    · simp [hp, add?_size h, ih h.tail, Nat.add_assoc]
    · simp [hp]

theorem countWhile?_eq (p : Char → Bool) (h : Fits ⟨text, offset⟩) :
    countWhile? p ⟨text, offset⟩ = some (byteSize (text.takeWhile p),
      ⟨text.dropWhile p, offset + byteSize (text.takeWhile p)⟩) := by
  simp [countWhile?, advanceWhile?_eq p h, Offset.sub?]

/-- Where the cut of a string or a comment ends, in the form of a reader's answer. -/
def ending (text : List Char) (offset : Nat) : Option (List Char × List Char) → Bool × Reader
  | some (body, after) => (true, ⟨after, offset + byteSize body⟩)
  | none => (false, ⟨[], offset + byteSize text⟩)

private theorem ending_append (before text : List Char) (offset : Nat)
    (cut : Option (List Char × List Char)) :
    ending (before ++ text) offset (cut.map fun (body, after) => (before ++ body, after)) =
      ending text (offset + byteSize before) cut := by
  cases cut <;> simp [ending, Nat.add_assoc]

theorem stringEnd?_eq (h : Fits ⟨text, offset⟩) :
    stringEnd? text offset = some (ending text offset (Cut.closeString? text)) := by
  fun_induction Cut.closeString? text generalizing offset with
  | case1 => rfl
  | case2 text =>
    rw [stringEnd?, add?_size h]
    rfl
  | case3 c text ih =>
    have hending := ending_append ['\\', c] text offset (Cut.closeString? text)
    rw [stringEnd?, add?_size h, Option.bind_eq_bind, Option.bind_some, add?_size h.tail,
      Option.bind_some, ih h.tail.tail]
    simpa [Nat.add_assoc] using hending.symm
  | case4 c text hq he ih =>
    have hending := ending_append [c] text offset (Cut.closeString? text)
    rw [stringEnd?.eq_4 _ _ _ hq he, add?_size h, Option.bind_eq_bind, Option.bind_some, ih h.tail]
    simpa using hending.symm

theorem commentEnd?_eq (h : Fits ⟨text, offset⟩) :
    commentEnd? text offset = some (ending text offset (Cut.closeComment? text)) := by
  fun_induction Cut.closeComment? text generalizing offset with
  | case1 => rfl
  | case2 text =>
    rw [commentEnd?, add?_size h, Option.bind_eq_bind, Option.bind_some, add?_size h.tail]
    simp [ending, Nat.add_assoc]
  | case3 c text he ih =>
    have hending := ending_append [c] text offset (Cut.closeComment? text)
    rw [commentEnd?.eq_3 _ _ _ he, add?_size h, Option.bind_eq_bind, Option.bind_some, ih h.tail]
    simpa using hending.symm

end ExprScan.Reader
