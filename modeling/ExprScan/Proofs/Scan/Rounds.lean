import ExprScan.Proofs.Scan.Lexeme
import ExprScan.Proofs.Scan.Loops
import ExprScan.Proofs.Scan.Pieces
import ExprScan.Proofs.Text.Slice
import Mathlib.Logic.Relation

/-! The rounds of a scanner. Each round notes the piece that a cut of the rest describes, so rounds
lead to the end of the text and find exactly the pieces of the scan. -/
namespace ExprScan.Scanner

variable {scanner : Scanner} {before text more rest : List Char} {first : Char} {stop : Nat}

/-- The scanner stands between two parts of its text, and all offsets into the text are words. -/
structure At (scanner : Scanner) (before rest : List Char) : Prop where
  source : scanner.source.toList = before ++ rest
  reader : scanner.reader = ⟨rest, byteSize before⟩
  fits : byteSize scanner.source.toList < Offset.bound

def note (scanner : Scanner) (pieces : List Piece) : Scanner :=
  { scanner with
    tokens := scanner.tokens ++ pieces.filterMap Piece.token?
    diagnostics := scanner.diagnostics ++ pieces.filterMap Piece.diagnostic?
    records := scanner.records ++ pieces.filterMap Piece.record? }

private theorem note_note (scanner : Scanner) (first later : List Piece) :
    (scanner.note first).note later = scanner.note (first ++ later) := by
  simp [note]

def take (scanner : Scanner) (first : Char) (cut : Cut) : Scanner :=
  let piece := cut.piece first scanner.reader.offset
  (scanner.moveTo ⟨cut.rest, piece.span.stop⟩).note [piece]

private theorem At.readerFits (h : scanner.At before rest) :
    Reader.Fits ⟨rest, byteSize before⟩ := by
  rw [Reader.fits_mk, ← byteSize_append, ← h.source]
  exact h.fits

private theorem lexeme?_moveTo (h : scanner.At before (first :: (more ++ rest)))
    (hs : stop = byteSize before + byteSize (first :: more)) :
    (scanner.moveTo ⟨rest, stop⟩).lexeme? (byteSize before) =
      some (String.ofList (first :: more)) := by
  subst hs
  exact slice?_append h.source

private theorem emit?_moveTo {kind : Kind} (h : scanner.At before (first :: (more ++ rest)))
    (hs : stop = byteSize before + byteSize (first :: more)) :
    (scanner.moveTo ⟨rest, stop⟩).emit? kind (byteSize before) =
      some (scanner.take first ⟨.token kind, more, rest⟩) := by
  rw [emit?, lexeme?_moveTo h hs]
  simp [take, note, moveTo, h.reader, hs, Cut.piece, Piece.token?, Piece.diagnostic?, Piece.record?]

private theorem report_moveTo {fault : Fault} (h : scanner.At before text)
    (hs : stop = byteSize before + byteSize (first :: more)) :
    (scanner.moveTo ⟨rest, stop⟩).report fault (byteSize before) =
      scanner.take first ⟨.fault fault, more, rest⟩ := by
  simp [report, take, note, moveTo, h.reader, hs, Cut.piece, Piece.token?, Piece.diagnostic?,
    Piece.record?]

private theorem number?_eq (h : scanner.At before (first :: text)) (hd : first.isDigit) :
    scanner.number? (byteSize before) = some (scanner.take first (Cut.number text)) := by
  have hmore := Cut.number_more_append_rest text
  have hcount := Reader.countWhile?_eq Char.isDigit h.readerFits
  have hfits := h.readerFits.dropWhile Char.isDigit
  rw [List.takeWhile_cons_of_pos hd, List.dropWhile_cons_of_pos hd] at hcount hfits
  simp only [number?, h.reader, hcount, Option.bind_eq_bind, Option.bind_some]
  rw [Cut.number] at hmore ⊢
  split at hmore
  · next after he =>
    simp only [he] at hfits ⊢
    simp only [Reader.advanceIf?_self hfits, Option.bind_some, if_true,
      Reader.countWhile?_eq Char.isDigit hfits.tail]
    rw [← hmore] at h
    exact emit?_moveTo h (by simp [Nat.add_assoc])
  · next hp =>
    have hpoint : (text.dropWhile Char.isDigit).head? ≠ some '.' := by
      intro hs
      obtain ⟨after, he⟩ := List.head?_eq_some_iff.mp hs
      exact hp after he
    simp only [Reader.advanceIf?_other hpoint, Option.bind_some, Bool.false_eq_true, if_false]
    rw [← hmore] at h
    exact emit?_moveTo h rfl

private theorem word?_eq (h : scanner.At before (first :: text)) (hw : isWordPart first) :
    scanner.word? (byteSize before) =
      some (scanner.take first (Cut.word scanner.dialect first text)) := by
  have hcount := Reader.countWhile?_eq isWordPart h.readerFits
  rw [List.takeWhile_cons_of_pos hw, List.dropWhile_cons_of_pos hw] at hcount
  simp only [word?, h.reader, hcount, Option.bind_eq_bind, Option.bind_some]
  rw [← List.takeWhile_append_dropWhile (p := isWordPart) (l := text)] at h
  rw [lexeme?_moveTo h rfl]
  exact emit?_moveTo h rfl

private theorem string?_eq (h : scanner.At before ('"' :: text)) :
    scanner.string? (byteSize before) = some (scanner.take '"' (Cut.string text)) := by
  have hfits := h.readerFits
  simp only [string?, h.reader, Reader.advanceIf?_self hfits, Reader.stringEnd?_eq hfits.tail,
    Option.bind_eq_bind, Option.bind_some]
  rw [Cut.string]
  cases hc : Cut.closeString? text with
  | none => exact congrArg some (report_moveTo h (by simp [Nat.add_assoc]))
  | some cut =>
    rw [← Cut.append_of_closeString? hc] at h
    exact emit?_moveTo h (by simp [Nat.add_assoc])

private theorem lineComment?_eq (h : scanner.At before ('/' :: '/' :: text)) :
    scanner.lineComment? (byteSize before) = some (scanner.take '/' (Cut.lineComment text)) := by
  have hcount := Reader.countWhile?_eq (· ≠ '\n') h.readerFits
  rw [List.takeWhile_cons_of_pos rfl, List.dropWhile_cons_of_pos rfl,
    List.takeWhile_cons_of_pos rfl, List.dropWhile_cons_of_pos rfl] at hcount
  simp only [lineComment?, h.reader, hcount, Option.bind_eq_bind, Option.bind_some]
  rw [← List.takeWhile_append_dropWhile (p := (· ≠ '\n')) (l := text)] at h
  exact emit?_moveTo h rfl

private theorem blockComment?_eq (h : scanner.At before ('/' :: '*' :: text)) :
    scanner.blockComment? (byteSize before) = some (scanner.take '/' (Cut.blockComment text)) := by
  have hfits := h.readerFits
  simp only [blockComment?, h.reader, Reader.advanceIf?_self hfits,
    Reader.advanceIf?_self hfits.tail, Reader.commentEnd?_eq hfits.tail.tail,
    Option.bind_eq_bind, Option.bind_some]
  rw [Cut.blockComment]
  cases hc : Cut.closeComment? text with
  | none => exact congrArg some (report_moveTo h (by simp [Nat.add_assoc]))
  | some cut =>
    rw [← Cut.append_of_closeComment? hc] at h
    exact emit?_moveTo h (by simp [Nat.add_assoc])

private theorem singleOperator_eq (h : scanner.At before (first :: text))
    (hs : stop = byteSize before + first.utf8Size) :
    (if isSingleOperator first then
      (scanner.moveTo ⟨text, stop⟩).emit? .operator (byteSize before)
    else return (scanner.moveTo ⟨text, stop⟩).report .unknownCharacter (byteSize before)) =
      some (scanner.take first (Cut.singleOperator first text)) := by
  rw [Cut.singleOperator]
  split
  · exact emit?_moveTo h (by simp [hs])
  · exact congrArg some (report_moveTo h (by simp [hs]))

private theorem operator?_eq (h : scanner.At before (first :: text)) :
    scanner.operator? first (byteSize before) =
      some (scanner.take first (Cut.operator first text)) := by
  have hfits := h.readerFits
  simp only [operator?, h.reader, Reader.advance?_cons hfits, Option.bind_eq_bind, Option.bind_some]
  unfold Cut.operator
  cases text with
  | nil => exact singleOperator_eq h rfl
  | cons second after =>
    by_cases hp : isOperatorPair first second
    · simp only [Reader.peek?, List.getElem?_cons_zero, Option.any_some, hp, if_true,
        Reader.advance?_cons hfits.tail, Option.bind_some]
      have hpair : scanner.At before (first :: ([second] ++ after)) := h
      exact emit?_moveTo hpair (by simp [Nat.add_assoc])
    · simp only [Reader.peek?, List.getElem?_cons_zero, Option.any_some, hp, Bool.false_eq_true,
        if_false]
      exact singleOperator_eq h rfl

private theorem slash?_eq (h : scanner.At before ('/' :: text)) :
    scanner.slash? (byteSize before) = some (scanner.take '/' (Cut.slash text)) := by
  rw [slash?]
  rw [h.reader]
  cases text with
  | nil => exact operator?_eq h
  | cons second after =>
    by_cases hl : second = '/'
    · subst hl
      exact lineComment?_eq h
    by_cases hb : second = '*'
    · subst hb
      exact blockComment?_eq h
    rw [Cut.slash_cons_of_ne hl hb]
    split
    · next hs => exact (hl (Option.some.inj hs)).elim
    · next hs => exact (hb (Option.some.inj hs)).elim
    · exact operator?_eq h

private theorem skip?_eq (h : scanner.At before (first :: text)) :
    scanner.skip? first (byteSize before) = some (scanner.take first (Cut.skip first text)) := by
  simp only [skip?, h.reader, Reader.advance?_cons h.readerFits, Option.bind_eq_bind,
    Option.bind_some]
  rw [Cut.skip]
  split
  · simp [take, note, moveTo, h.reader, Cut.piece, Piece.token?, Piece.diagnostic?, Piece.record?]
  · exact congrArg some (report_moveTo h (by simp))

theorem isWordPart_of_isWordStart {c : Char} (h : isWordStart c) : isWordPart c := by
  rw [isWordStart] at h
  simp [isWordPart, Char.isAlphanum, h]

/-- A round reads one segment, namely the one that a cut of the rest describes. -/
theorem step?_eq (h : scanner.At before (first :: text)) :
    scanner.step? first = some (scanner.take first (Cut.of scanner.dialect first text)) := by
  have hstart : scanner.reader.offset = byteSize before := by rw [h.reader]
  rw [step?, Cut.of]
  rw [hstart]
  split
  · next hd => exact number?_eq h hd
  split
  · next hw => exact word?_eq h (isWordPart_of_isWordStart hw)
  split
  · next hq => subst hq; exact string?_eq h
  split
  · next hs => subst hs; exact slash?_eq h
  split
  · exact operator?_eq h
  · exact skip?_eq h

private theorem At.take (h : scanner.At before (first :: (more ++ rest))) (label : Label) :
    (scanner.take first ⟨label, more, rest⟩).At (before ++ first :: more) rest where
  source := by simpa [Scanner.take, note, moveTo] using h.source
  reader := by simp [Scanner.take, note, moveTo, h.reader, Cut.piece]
  fits := h.fits

private theorem At.take_of (h : scanner.At before (first :: text)) :
    (scanner.take first (Cut.of scanner.dialect first text)).At
      (before ++ first :: (Cut.of scanner.dialect first text).more)
      (Cut.of scanner.dialect first text).rest := by
  rw [← Cut.of_more_append_rest scanner.dialect first text] at h
  exact h.take _

/-- A round reads this piece: it goes on right behind it and notes what it is. -/
structure Reads (scanner : Scanner) (piece : Piece) (after : Scanner) : Prop where
  rest : scanner.reader.rest = piece.text ++ after.reader.rest
  span : piece.span = ⟨scanner.reader.offset, scanner.reader.offset + byteSize piece.text⟩
  offset : after.reader.offset = piece.span.stop
  tokens : after.tokens = scanner.tokens ++ piece.token?.toList
  diagnostics : after.diagnostics = scanner.diagnostics ++ piece.diagnostic?.toList

/-- Rounds lead from the start of a text to this scanner. -/
def Reached (dialect : Dialect) (source : String) (scanner : Scanner) : Prop :=
  Relation.ReflTransGen Next (start dialect source) scanner

/-- The scanner stands in front of a piece or at the end, and has noted the pieces before that. -/
structure Between (dialect : Dialect) (source : String) (done : List Piece) (rest : List Char)
    (scanner : Scanner) : Prop where
  notes : scanner = ((start dialect source).moveTo scanner.reader).note done
  place : scanner.At (done.flatMap (·.text)) rest
  pieces : (Scan.ofString dialect source).pieces = done ++
    Piece.place (byteSize (done.flatMap (·.text))) (segments dialect rest)

variable {dialect : Dialect} {source : String} {done : List Piece} {after : Scanner}

theorem between_start (h : byteSize source.toList < Offset.bound) :
    (start dialect source).Between dialect source [] source.toList where
  notes := by simp [note, moveTo, start]
  place := ⟨rfl, rfl, h⟩
  pieces := rfl

private theorem Between.dialect_eq (h : scanner.Between dialect source done rest) :
    scanner.dialect = dialect := by
  rw [h.notes]
  rfl

private theorem Between.take (h : scanner.Between dialect source done (first :: text)) :
    (scanner.take first (Cut.of dialect first text)).Between dialect source
      (done ++ [(Cut.of dialect first text).piece first scanner.reader.offset])
      (Cut.of dialect first text).rest where
  notes := by
    have hmove (reader : Reader) :
        scanner.moveTo reader = ((start dialect source).moveTo reader).note done :=
      congrArg (moveTo · reader) h.notes
    rw [← note_note]
    exact congrArg (note · _) (hmove _)
  place := by
    have hplace := h.place.take_of
    rw [h.dialect_eq] at hplace
    simpa [Cut.piece] using hplace
  pieces := by
    rw [h.pieces, Piece.place_segments_cons, h.place.reader]
    simp [Cut.piece]

/-- A scanner in front of a character makes a round, and only one. -/
theorem Between.next_iff (h : scanner.Between dialect source done (first :: text)) :
    scanner.Next after ↔ after = scanner.take first (Cut.of dialect first text) := by
  have hstep := step?_eq h.place
  rw [h.dialect_eq] at hstep
  rw [Next]
  rw [h.place.reader]
  constructor
  · rintro ⟨_, hfirst, hafter⟩
    cases hfirst
    rw [hstep] at hafter
    exact (Option.some.inj hafter).symm
  · rintro rfl
    exact ⟨first, rfl, hstep⟩

/-- The piece that a round reads is the first segment of the rest. -/
theorem Between.reads (h : scanner.Between dialect source done (first :: text)) :
    scanner.Reads ((Cut.of dialect first text).piece first scanner.reader.offset)
      (scanner.take first (Cut.of dialect first text)) where
  rest := by
    rw [h.place.reader]
    exact congrArg (first :: ·) (Cut.of_more_append_rest dialect first text).symm
  span := rfl
  offset := rfl
  tokens := by simp [Scanner.take, note, moveTo, filterMap_cons_toList]
  diagnostics := by simp [Scanner.take, note, moveTo, filterMap_cons_toList]

theorem Next.rest_ne_nil (h : scanner.Next after) : scanner.reader.rest ≠ [] := by
  obtain ⟨_, hfirst, -⟩ := h
  intro hrest
  rw [Reader.peek?, hrest] at hfirst
  cases hfirst

/-- Every scanner on the way stands between two pieces. -/
theorem Reached.between (hfits : byteSize source.toList < Offset.bound)
    (h : scanner.Reached dialect source) :
    ∃ done rest, scanner.Between dialect source done rest := by
  induction h with
  | refl => exact ⟨_, _, between_start hfits⟩
  | tail _ hnext ih =>
    obtain ⟨done, rest, hb⟩ := ih
    cases rest with
    | nil => exact (hnext.rest_ne_nil (by rw [hb.place.reader])).elim
    | cons first text =>
      rw [hb.next_iff.mp hnext]
      exact ⟨_, _, hb.take⟩

/-- A scanner in front of a character, seen from the pieces. -/
theorem Reached.between_cons (hfits : source.utf8ByteSize < Offset.bound)
    (h : scanner.Reached dialect source) (hr : scanner.reader.rest ≠ []) :
    ∃ done first text, scanner.reader.rest = first :: text ∧
      scanner.Between dialect source done (first :: text) := by
  rw [← byteSize_toList] at hfits
  obtain ⟨done, rest, hb⟩ := h.between hfits
  have hrest : scanner.reader.rest = rest := by rw [hb.place.reader]
  obtain ⟨first, text, rfl⟩ := List.exists_cons_of_ne_nil (hrest ▸ hr)
  exact ⟨done, first, text, hrest, hb⟩

private theorem Between.done_eq (h : scanner.Between dialect source done []) :
    done = (Scan.ofString dialect source).pieces := by
  simpa [segments, Piece.place] using h.pieces.symm

/-- Rounds lead on to the end of the text. -/
theorem Between.exists_last (h : scanner.Between dialect source done rest) :
    ∃ last, Relation.ReflTransGen Next scanner last ∧
      last.Between dialect source (Scan.ofString dialect source).pieces [] := by
  induction hn : rest.length using Nat.strongRecOn generalizing scanner done rest with
  | _ n ih =>
  cases rest with
  | nil => exact ⟨scanner, .refl, h.done_eq ▸ h⟩
  | cons first text =>
    have hlt := Nat.lt_succ_of_le (Cut.length_of_rest_le dialect first text)
    obtain ⟨last, hrun, hlast⟩ := ih _ (hn ▸ hlt) h.take rfl
    exact ⟨last, .head (h.next_iff.mpr rfl) hrun, hlast⟩

/-- At the end of the text the scanner has noted all of the scan. -/
theorem Between.note_eq (h : scanner.Between dialect source done []) :
    scanner = ((start dialect source).moveTo ⟨[], byteSize source.toList⟩).note
      (Scan.ofString dialect source).pieces := by
  have hsource : scanner.source = source := by
    rw [h.notes]
    rfl
  have hreader : scanner.reader = ⟨[], byteSize source.toList⟩ := by
    rw [h.place.reader, ← hsource, h.place.source, List.append_nil]
  rw [← h.done_eq, ← hreader]
  exact h.notes

end ExprScan.Scanner
