import ExprScan.Proofs.Scan.Longest
import ExprScan.Proofs.Scan.Rounds

/-! A scan tiles its text: nothing is lost, doubled or moved, and the spans of its diagnostics are
those of the text that they are about. -/
namespace ExprScan

/-- Pieces that cover a text from its first byte to its last. -/
structure Tiling (source : String) (pieces : List Piece) : Prop where
  text : pieces.flatMap (·.text) = source.toList
  nonempty : ∀ piece ∈ pieces, piece.text ≠ []
  span : ∀ done piece later, pieces = done ++ piece :: later → piece.span =
    ⟨byteSize (done.flatMap (·.text)), byteSize ((done ++ [piece]).flatMap (·.text))⟩
  blank : ∀ piece ∈ pieces, piece.label = .blank → ∃ c, piece.text = [c] ∧ isBlank c = true
  unknown : ∀ piece ∈ pieces, piece.label = .fault .unknownCharacter →
    ∃ c, piece.text = [c] ∧ isBlank c = false
  unterminated : ∀ done piece later fault, pieces = done ++ piece :: later →
    piece.label = .fault fault → fault ≠ .unknownCharacter → later = []

/-- Diagnostics that stand in the order of a text, each over a slice of it, and of which only the
last one can be about a literal that is never closed. -/
structure InPlace (source : String) (diagnostics : List Diagnostic) : Prop where
  inside : ∀ diagnostic ∈ diagnostics, diagnostic.span.start < diagnostic.span.stop ∧
    diagnostic.span.stop ≤ source.utf8ByteSize
  slice : ∀ diagnostic ∈ diagnostics, ∃ text, diagnostic.span.slice? source = some text
  increasing : diagnostics.Pairwise fun earlier later => earlier.span.stop ≤ later.span.start
  unknown : ∀ diagnostic ∈ diagnostics, diagnostic.fault = .unknownCharacter →
    ∃ c, diagnostic.span.slice? source = some (String.singleton c) ∧ isBlank c = false
  unterminated : ∀ before diagnostic after, diagnostics = before ++ diagnostic :: after →
    diagnostic.fault ≠ .unknownCharacter →
      after = [] ∧ diagnostic.span.stop = source.utf8ByteSize

/-- A scanner that never fails a check, reads on in every round, and comes to the end of the text
with all that the scan finds. -/
structure Scanner.Completes (dialect : Dialect) (source : String) : Prop where
  total : ∀ scanner : Scanner, scanner.Reached dialect source → scanner.reader.rest ≠ [] →
    ∃ after, scanner.Next after
  advances : ∀ scanner after : Scanner, scanner.Reached dialect source → scanner.Next after →
    ∃ piece, piece.text ≠ [] ∧ scanner.Reads piece after
  ends : ∃ last : Scanner, last.Reached dialect source ∧ last.reader.rest = []
  result : ∀ last : Scanner, last.Reached dialect source → last.reader.rest = [] →
    last.reader.offset = source.utf8ByteSize ∧
      last.tokens = (Scan.ofString dialect source).tokens ∧
      last.diagnostics = (Scan.ofString dialect source).diagnostics ∧
      last.finish.records = (Scan.ofString dialect source).records

variable {dialect : Dialect} {source : String} {pieces done later : List Piece} {piece : Piece}
  {first : Char} {text : List Char}

theorem pieces_split (h : (Scan.ofString dialect source).pieces = done ++ piece :: later) :
    ∃ first rest, source.toList = done.flatMap (·.text) ++ first :: rest ∧
      piece = (Cut.of dialect first rest).piece first (byteSize (done.flatMap (·.text))) ∧
      later = Piece.place piece.span.stop (segments dialect (Cut.of dialect first rest).rest) := by
  simpa using Piece.place_segments_split h

private theorem more_eq_nil_of_label {label : Label} (h : (Cut.of dialect first text).label = label)
    (hl : label = .blank ∨ label = .fault .unknownCharacter) :
    (Cut.of dialect first text).more = [] ∧
      label = if isBlank first then .blank else .fault .unknownCharacter := by
  have houtcome := Cut.of_outcome dialect first text
  generalize Cut.of dialect first text = cut at h houtcome
  subst h
  cases houtcome with
  | token _ => simp at hl
  | opened ho =>
    rcases hl with hl | hl
    · cases hl
    · exact (ho.ne_unknownCharacter (Label.fault.inj hl)).elim
  | skipped _ => exact ⟨rfl, rfl⟩

theorem rest_eq_nil_of_label {fault : Fault} (h : (Cut.of dialect first text).label = .fault fault)
    (hf : fault ≠ .unknownCharacter) : (Cut.of dialect first text).rest = [] := by
  have houtcome := Cut.of_outcome dialect first text
  generalize Cut.of dialect first text = cut at h houtcome
  cases houtcome with
  | token _ => cases h
  | opened _ => rfl
  | skipped _ =>
    dsimp only at h
    split at h
    · cases h
    · exact (hf (Label.fault.inj h).symm).elim

private theorem exists_char_of_label (hm : piece ∈ (Scan.ofString dialect source).pieces)
    (hl : piece.label = .blank ∨ piece.label = .fault .unknownCharacter) :
    ∃ c, piece.text = [c] ∧
      piece.label = if isBlank c then .blank else .fault .unknownCharacter := by
  obtain ⟨done, later, h⟩ := List.append_of_mem hm
  obtain ⟨first, rest, -, rfl, -⟩ := pieces_split h
  obtain ⟨hmore, hlabel⟩ := more_eq_nil_of_label rfl hl
  exact ⟨first, congrArg (first :: ·) hmore, hlabel⟩

theorem scan_pieces_tiling (dialect : Dialect) (source : String) :
    Tiling source (Scan.ofString dialect source).pieces where
  text := by
    rw [Scan.ofString, Piece.flatMap_text_place, flatMap_text_segments]
  nonempty piece hm := by
    obtain ⟨done, later, h⟩ := List.append_of_mem hm
    obtain ⟨first, rest, -, rfl, -⟩ := pieces_split h
    exact List.cons_ne_nil _ _
  span done piece later h := by
    obtain ⟨first, rest, -, rfl, -⟩ := pieces_split h
    simp [Cut.piece]
  blank piece hm hl := by
    obtain ⟨c, ht, hlabel⟩ := exists_char_of_label hm (.inl hl)
    exact ⟨c, ht, by simpa [hl] using hlabel⟩
  unknown piece hm hl := by
    obtain ⟨c, ht, hlabel⟩ := exists_char_of_label hm (.inr hl)
    exact ⟨c, ht, by simpa [hl] using hlabel⟩
  unterminated done piece later fault h hl hf := by
    obtain ⟨first, rest, -, rfl, rfl⟩ := pieces_split h
    rw [rest_eq_nil_of_label hl hf, segments]
    rfl

theorem Tiling.slice (h : Tiling source pieces) (hs : pieces = done ++ piece :: later) :
    piece.span.slice? source = some (String.ofList piece.text) := by
  have htext : source.toList =
      done.flatMap (·.text) ++ (piece.text ++ later.flatMap (·.text)) := by
    rw [← h.text, hs, List.flatMap_append, List.flatMap_cons]
  rw [h.span done piece later hs]
  simpa using slice?_append htext

theorem Tiling.inside (h : Tiling source pieces) (hs : pieces = done ++ piece :: later) :
    piece.span.start < piece.span.stop ∧ piece.span.stop ≤ source.utf8ByteSize := by
  have hmem : piece ∈ pieces := by simp [hs]
  have hprefix : (done ++ [piece]).flatMap (·.text) <+: source.toList := by
    rw [← h.text, hs]
    exact ⟨later.flatMap (·.text), by simp⟩
  rw [h.span done piece later hs, ← byteSize_toList]
  refine ⟨?_, byteSize_le_of_prefix hprefix⟩
  have hpos := byteSize_pos (h.nonempty piece hmem)
  simpa using hpos

theorem Tiling.later_ne_nil (h : Tiling source pieces) (hs : pieces = done ++ piece :: later)
    (hlt : piece.span.stop < source.utf8ByteSize) : later ≠ [] := by
  rintro rfl
  rw [h.span done piece [] hs, ← hs, h.text, byteSize_toList] at hlt
  exact Nat.lt_irrefl _ hlt

theorem Tiling.increasing (h : Tiling source pieces) :
    pieces.Pairwise fun earlier later => earlier.span.stop ≤ later.span.start := by
  rw [List.pairwise_iff_getElem]
  intro i j hi hj hij
  have hsplit (k : Nat) (hk : k < pieces.length) :
      pieces = pieces.take k ++ pieces[k] :: pieces.drop (k + 1) := by
    rw [← List.drop_eq_getElem_cons hk, List.take_append_drop]
  rw [h.span _ _ _ (hsplit i hi), h.span _ _ _ (hsplit j hj), List.take_append_getElem hi]
  obtain ⟨between, hb⟩ := List.take_prefix_take_left (l := pieces) (Nat.succ_le_of_lt hij)
  apply byteSize_le_of_prefix
  rw [← hb, List.flatMap_append]
  exact List.prefix_append _ _

theorem Piece.token?_eq_some_iff {token : Token} : piece.token? = some token ↔
    piece.label = .token token.kind ∧ String.ofList piece.text = token.lexeme := by
  obtain ⟨⟨label, text⟩, span⟩ := piece
  obtain ⟨kind, lexeme⟩ := token
  cases label <;> simp [Piece.token?]

theorem Piece.diagnostic?_eq_some_iff {diagnostic : Diagnostic} :
    piece.diagnostic? = some diagnostic ↔
      piece.label = .fault diagnostic.fault ∧ piece.span = diagnostic.span := by
  obtain ⟨⟨label, text⟩, span⟩ := piece
  obtain ⟨fault, other⟩ := diagnostic
  cases label <;> simp [Piece.diagnostic?]

theorem exists_split_of_mem_diagnostics {diagnostic : Diagnostic}
    (h : diagnostic ∈ pieces.filterMap Piece.diagnostic?) : ∃ done piece later,
      pieces = done ++ piece :: later ∧ piece.label = .fault diagnostic.fault ∧
        piece.span = diagnostic.span := by
  obtain ⟨piece, hm, hp⟩ := List.mem_filterMap.mp h
  obtain ⟨done, later, hs⟩ := List.append_of_mem hm
  exact ⟨done, piece, later, hs, Piece.diagnostic?_eq_some_iff.mp hp⟩

/-- The diagnostics of a tiling stand where their pieces stand. -/
theorem Tiling.inPlace (h : Tiling source pieces) :
    InPlace source (pieces.filterMap Piece.diagnostic?) where
  inside diagnostic hd := by
    obtain ⟨done, piece, later, hs, -, hspan⟩ := exists_split_of_mem_diagnostics hd
    rw [← hspan]
    exact h.inside hs
  slice diagnostic hd := by
    obtain ⟨done, piece, later, hs, -, hspan⟩ := exists_split_of_mem_diagnostics hd
    rw [← hspan]
    exact ⟨_, h.slice hs⟩
  increasing := by
    rw [List.pairwise_filterMap]
    refine h.increasing.imp ?_
    intro earlier later hle diagnostic hd other ho
    rw [← (Piece.diagnostic?_eq_some_iff.mp hd).2, ← (Piece.diagnostic?_eq_some_iff.mp ho).2]
    exact hle
  unknown diagnostic hd hu := by
    obtain ⟨done, piece, later, hs, hlabel, hspan⟩ := exists_split_of_mem_diagnostics hd
    obtain ⟨c, ht, hb⟩ := h.unknown piece (by simp [hs]) (by rw [hlabel, hu])
    refine ⟨c, ?_, hb⟩
    rw [← hspan, h.slice hs, ht]
    rfl
  unterminated before diagnostic after hd hu := by
    obtain ⟨done, rest, rfl, -, hrest⟩ := List.filterMap_eq_append_iff.mp hd
    obtain ⟨plain, piece, later, rfl, -, hpiece, hlater⟩ := List.filterMap_eq_cons_iff.mp hrest
    obtain ⟨hlabel, hspan⟩ := Piece.diagnostic?_eq_some_iff.mp hpiece
    rw [← List.append_assoc] at h
    have hnil := h.unterminated _ _ _ _ rfl hlabel hu
    subst hnil
    refine ⟨hlater.symm, ?_⟩
    rw [← hspan, h.span _ _ _ rfl, h.text, byteSize_toList]

/-- Every token of a scan is a lexeme of its kind. -/
theorem lexeme_of_mem_tokens {token : Token}
    (h : token ∈ (Scan.ofString dialect source).tokens) :
    Lexeme dialect token.kind token.lexeme.toList := by
  obtain ⟨piece, hm, hp⟩ := List.mem_filterMap.mp h
  obtain ⟨done, later, hs⟩ := List.append_of_mem hm
  obtain ⟨first, rest, -, rfl, -⟩ := pieces_split hs
  obtain ⟨hlabel, htext⟩ := Piece.token?_eq_some_iff.mp hp
  rw [← htext, String.toList_ofList]
  exact (Cut.tail_of_label hlabel).lexeme

theorem map_fst_placedTokens (scan : Scan) : scan.placedTokens.map Prod.fst = scan.tokens := by
  rw [Scan.placedTokens, List.map_filterMap, Scan.tokens]
  congr 1
  funext piece
  rw [Option.map_map]
  exact Option.map_id'

theorem slice_of_mem_placedTokens {entry : Token × Span}
    (h : entry ∈ (Scan.ofString dialect source).placedTokens) :
    entry.2.slice? source = some entry.1.lexeme := by
  obtain ⟨piece, hm, hp⟩ := List.mem_filterMap.mp h
  obtain ⟨token, ht, rfl⟩ := Option.map_eq_some_iff.mp hp
  obtain ⟨done, later, hs⟩ := List.append_of_mem hm
  rw [(scan_pieces_tiling dialect source).slice hs, (Piece.token?_eq_some_iff.mp ht).2]

theorem Scanner.Completes.of_fits (h : source.utf8ByteSize < Offset.bound) :
    Scanner.Completes dialect source := by
  have hfits : byteSize source.toList < Offset.bound := by rwa [byteSize_toList]
  constructor
  case total =>
    intro scanner hreached hrest
    obtain ⟨done, first, text, -, hb⟩ := hreached.between_cons h hrest
    exact ⟨_, hb.next_iff.mpr rfl⟩
  case advances =>
    intro scanner after hreached hnext
    obtain ⟨done, first, text, -, hb⟩ := hreached.between_cons h hnext.rest_ne_nil
    rw [hb.next_iff.mp hnext]
    exact ⟨_, List.cons_ne_nil _ _, hb.reads⟩
  case ends =>
    obtain ⟨last, hrun, hb⟩ := (Scanner.between_start hfits).exists_last
    exact ⟨last, hrun, congrArg Reader.rest hb.place.reader⟩
  case result =>
    intro last hreached hrest
    obtain ⟨done, rest, hb⟩ := hreached.between hfits
    have hnil : rest = [] := by rw [← hrest, hb.place.reader]
    subst hnil
    rw [hb.note_eq, ← byteSize_toList]
    simp [Scanner.finish, Scanner.note, Scanner.moveTo, Scanner.start, Scan.records, Scan.tokens,
      Scan.diagnostics]

/-- A scan is a tiling of its text: the tokens and the diagnostics are its pieces in their order,
diagnostics cover the bytes of theirs, and going through a text whose end is a word never fails a
check. -/
theorem scan_tiles_source (dialect : Dialect) (source : String) :
    (∃ pieces, Tiling source pieces ∧
      (Scan.ofString dialect source).tokens = pieces.filterMap Piece.token? ∧
      (Scan.ofString dialect source).diagnostics = pieces.filterMap Piece.diagnostic?) ∧
    InPlace source (Scan.ofString dialect source).diagnostics ∧
    (source.utf8ByteSize < Offset.bound → Scanner.Completes dialect source) :=
  ⟨⟨_, scan_pieces_tiling dialect source, rfl, rfl⟩, (scan_pieces_tiling dialect source).inPlace,
    Scanner.Completes.of_fits⟩

theorem scan_tiles_source_open_string : "é \"a".utf8ByteSize < Offset.bound ∧
    Scanner.Completes .standard "é \"a" :=
  ⟨by decide, (scan_tiles_source .standard "é \"a").2.2 (by decide)⟩

end ExprScan
