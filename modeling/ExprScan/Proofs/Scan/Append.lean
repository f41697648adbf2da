import ExprScan.Proofs.Scan.Partition

/-! Scanning a text with more text behind it. What is scanned before the end of the first text stays,
and behind a line break the second text is scanned as if it stood alone. -/
namespace ExprScan

variable {dialect : Dialect} {c : Char} {text : List Char} {segment : Segment}

theorem segments_cons_of_isBlank (h : isBlank c) :
    segments dialect (c :: text) = ⟨.blank, [c]⟩ :: segments dialect text := by
  rw [segments, Cut.of_blank h]

/-- Where nothing is left open, a newline parts the text in front of it from the text behind it. -/
theorem segments_append_newline (after : List Char)
    (h : ∀ segment ∈ segments dialect text, ∀ fault, segment.label = .fault fault →
      fault = .unknownCharacter) :
    segments dialect (text ++ '\n' :: after) =
      segments dialect text ++ ⟨.blank, ['\n']⟩ :: segments dialect after := by
  have hnewline : isBlank '\n' := by decide
  have hends : ∀ segment ∈ (segments dialect text).getLast?,
      segment.endsBefore (some '\n') := by
    intro segment hs
    have hmem := List.mem_of_getLast? hs
    exact segment.endsBefore_of_isBlank hnewline (fun _ => rfl) (h segment hmem)
  have hjoint := segments_append ('\n' :: after)
    (List.append_nil (segments dialect text)).symm hends
  rw [List.flatMap_nil, List.nil_append, segments_cons_of_isBlank hnewline] at hjoint
  exact hjoint

private theorem exists_diagnostic_of_fault {source : String} {fault : Fault}
    (h : segment ∈ segments dialect source.toList) (hf : segment.label = .fault fault) :
    ∃ diagnostic ∈ (Scan.ofString dialect source).diagnostics, diagnostic.fault = fault := by
  rw [← Piece.map_toSegment_place 0 (segments dialect source.toList)] at h
  obtain ⟨piece, hp, rfl⟩ := List.mem_map.mp h
  have hdiagnostic : piece.diagnostic? = some ⟨fault, piece.span⟩ :=
    Piece.diagnostic?_eq_some_iff.mpr ⟨hf, rfl⟩
  exact ⟨_, List.mem_filterMap.mpr ⟨piece, hp, hdiagnostic⟩, rfl⟩

/-- Scanning goes line by line: in front of a newline a text in which nothing is left open ends as it
ends alone, and the text behind the newline only has its diagnostics further on. -/
theorem scan_newline (dialect : Dialect) (a b : String)
    (h : ∀ diagnostic ∈ (Scan.ofString dialect a).diagnostics,
      diagnostic.fault ≠ .unterminatedString ∧ diagnostic.fault ≠ .unterminatedComment) :
    (Scan.ofString dialect (a ++ "\n" ++ b)).tokens =
        (Scan.ofString dialect a).tokens ++ (Scan.ofString dialect b).tokens ∧
      (Scan.ofString dialect (a ++ "\n" ++ b)).diagnostics =
        (Scan.ofString dialect a).diagnostics ++
          (Scan.ofString dialect b).diagnostics.map (·.shift (a.utf8ByteSize + 1)) := by
  have hfaults : ∀ segment ∈ segments dialect a.toList, ∀ fault,
      segment.label = .fault fault → fault = .unknownCharacter := by
    intro segment hs fault hf
    obtain ⟨diagnostic, hd, rfl⟩ := exists_diagnostic_of_fault hs hf
    obtain ⟨hstring, hcomment⟩ := h diagnostic hd
    cases hfault : diagnostic.fault with
    | unterminatedString => exact (hstring hfault).elim
    | unterminatedComment => exact (hcomment hfault).elim
    | unknownCharacter => rfl
  have hsegments := segments_append_newline b.toList hfaults
  have htext : (a ++ "\n" ++ b).toList = a.toList ++ '\n' :: b.toList := by simp
  have hblank : Segment.token? ⟨.blank, ['\n']⟩ = none := rfl
  constructor
  · simp only [Scan.tokens_ofString, htext, hsegments, List.filterMap_append,
      List.filterMap_cons, hblank]
  · simp only [Scan.ofString, Scan.diagnostics, htext, hsegments, Piece.place_append,
      List.filterMap_append, flatMap_text_segments, ← byteSize_toList]
    rw [← Piece.filterMap_diagnostic?_place_add, Piece.place, filterMap_cons_toList]
    rfl

theorem scan_newline_mark :
    (∀ diagnostic ∈ (Scan.ofString .standard "é!").diagnostics,
      diagnostic.fault ≠ .unterminatedString ∧ diagnostic.fault ≠ .unterminatedComment) ∧
    (Scan.ofString .standard ("é!" ++ "\n" ++ "= $")).tokens =
        (Scan.ofString .standard "é!").tokens ++ (Scan.ofString .standard "= $").tokens ∧
    (Scan.ofString .standard ("é!" ++ "\n" ++ "= $")).diagnostics =
        (Scan.ofString .standard "é!").diagnostics ++
          (Scan.ofString .standard "= $").diagnostics.map (·.shift ("é!".utf8ByteSize + 1)) :=
  ⟨by decide +kernel, scan_newline .standard "é!" "= $" (by decide +kernel)⟩

variable {done : List Piece} {piece : Piece}

private theorem flatMap_text_map_toSegment (pieces : List Piece) :
    (pieces.map (·.toSegment)).flatMap Segment.text = pieces.flatMap (·.text) :=
  List.flatMap_map ..

private theorem segments_of_pieces {rest : List Piece} {a : String}
    (h : (Scan.ofString dialect a).pieces = done ++ rest) :
    segments dialect a.toList = done.map (·.toSegment) ++ rest.map (·.toSegment) := by
  rw [← List.map_append, ← h]
  exact (Piece.map_toSegment_place 0 _).symm

/-- Appended text leaves pieces as they are if they end in front of what then stands behind them. -/
theorem pieces_append_of_endsBefore {rest : List Piece} {a : String} (x : String)
    (h : (Scan.ofString dialect a).pieces = done ++ rest)
    (he : ∀ piece ∈ done.getLast?, piece.endsBefore (rest.flatMap (·.text) ++ x.toList).head?) :
    (Scan.ofString dialect (a ++ x)).pieces = done ++ Piece.place (byteSize (done.flatMap (·.text)))
      (segments dialect (rest.flatMap (·.text) ++ x.toList)) := by
  have hdone : Piece.place 0 (done.map (·.toSegment)) = done := Piece.place_map_toSegment h
  have hjoint := segments_append x.toList (segments_of_pieces h) (by
    intro segment hs
    rw [List.getLast?_map] at hs
    obtain ⟨piece, hp, rfl⟩ := Option.map_eq_some_iff.mp hs
    rw [flatMap_text_map_toSegment]
    exact he piece hp)
  rw [Scan.ofString, String.toList_append, hjoint, Piece.place_append, hdone,
    flatMap_text_map_toSegment, flatMap_text_map_toSegment, Nat.zero_add]

/-- Pieces that others stand behind end in front of those, whatever text is appended. -/
theorem endsBefore_append {rest : List Piece} {a : String}
    (h : (Scan.ofString dialect a).pieces = done ++ rest) (hr : rest ≠ []) (after : List Char) :
    ∀ piece ∈ done.getLast?, piece.endsBefore (rest.flatMap (·.text) ++ after).head? := by
  intro piece hp
  obtain ⟨-, hrest, hends⟩ :=
    partition_append_iff.mp (segments_of_pieces h ▸ partition_segments dialect a.toList)
  rw [← flatMap_text_map_toSegment, hrest.head?_append (by simpa using hr)]
  apply hends
  rw [List.getLast?_map, hp]
  rfl

/-- Appended text leaves the pieces up to one as they are, if that one is not the last or if no text
can make it go on. -/
private theorem pieces_append {rest : List Piece} {a : String} (x : String)
    (h : (Scan.ofString dialect a).pieces = done ++ piece :: rest)
    (he : rest ≠ [] ∨ ∀ next, piece.endsBefore next) :
    done ++ [piece] <+: (Scan.ofString dialect (a ++ x)).pieces := by
  rw [List.append_cons] at h
  rw [pieces_append_of_endsBefore x h]
  · exact List.prefix_append _ _
  rcases he with hne | he
  · exact endsBefore_append h hne x.toList
  · intro last hlast
    obtain rfl : piece = last := by simpa using hlast
    exact he _

private theorem endsBefore_of_closed {token : Token} (h : piece.token? = some token)
    (hc : token.Closed) (next : Option Char) : piece.endsBefore next := by
  obtain ⟨hlabel, htext⟩ := Piece.token?_eq_some_iff.mp h
  have hends := hc.endsBefore next
  rw [← htext, String.toList_ofList] at hends
  rw [Segment.endsBefore, hlabel]
  exact hends

/-- Appended text changes no more than the last segment of a scan and what comes behind it. All
other tokens and diagnostics keep their places, in the text and in their lists, and so does a last
token that is closed. -/
theorem scan_append_stable (dialect : Dialect) (a x : String) :
    (Scan.ofString dialect a).pieces.dropLast <+: (Scan.ofString dialect (a ++ x)).pieces ∧
    (Scan.ofString dialect a).placedTokens.map Prod.fst = (Scan.ofString dialect a).tokens ∧
    (∀ entry ∈ (Scan.ofString dialect a).placedTokens,
      entry.2.slice? a = some entry.1.lexeme) ∧
    (∀ (index : Nat) (token : Token) (span : Span),
      (Scan.ofString dialect a).placedTokens[index]? = some (token, span) →
      span.stop < a.utf8ByteSize ∨ token.Closed →
      (Scan.ofString dialect (a ++ x)).placedTokens[index]? = some (token, span)) ∧
    (∀ (index : Nat) (diagnostic : Diagnostic),
      (Scan.ofString dialect a).diagnostics[index]? = some diagnostic →
      diagnostic.span.stop < a.utf8ByteSize →
      (Scan.ofString dialect (a ++ x)).diagnostics[index]? = some diagnostic) := by
  have htiling := scan_pieces_tiling dialect a
  refine ⟨?_, map_fst_placedTokens _, fun _ => slice_of_mem_placedTokens, ?_, ?_⟩
  · rcases List.eq_nil_or_concat' (Scan.ofString dialect a).pieces with hnil | ⟨front, last, hp⟩
    · rw [hnil]
      exact List.nil_prefix
    rw [hp, List.dropLast_concat]
    rcases List.eq_nil_or_concat' front with rfl | ⟨done, piece, rfl⟩
    · exact List.nil_prefix
    · rw [List.append_assoc] at hp
      exact pieces_append x hp (.inl (List.cons_ne_nil _ _))
  · intro index token span hentry hends
    obtain ⟨done, piece, rest, hs, hpiece, hstays⟩ := Piece.getElem?_filterMap hentry
    obtain ⟨_, htoken, he⟩ := Option.map_eq_some_iff.mp hpiece
    cases he
    apply hstays
    apply pieces_append x hs
    rcases hends with hlt | hc
    · exact .inl (htiling.later_ne_nil hs hlt)
    · exact .inr (endsBefore_of_closed htoken hc)
  · intro index diagnostic hentry hlt
    obtain ⟨done, piece, rest, hs, hpiece, hstays⟩ := Piece.getElem?_filterMap hentry
    rw [← (Piece.diagnostic?_eq_some_iff.mp hpiece).2] at hlt
    exact hstays _ (pieces_append x hs (.inl (htiling.later_ne_nil hs hlt)))

theorem scan_append_stable_closed :
    (Scan.ofString .standard "é\"a\"").placedTokens[0]? = some (⟨.string, "\"a\""⟩, ⟨2, 5⟩) ∧
    (Scan.ofString .standard ("é\"a\"" ++ "b\"")).placedTokens[0]? =
      some (⟨.string, "\"a\""⟩, ⟨2, 5⟩) :=
  ⟨by decide +kernel, (scan_append_stable .standard "é\"a\"" "b\"").2.2.2.1 0 _ _
    (by decide +kernel) (.inr (.inl rfl))⟩

end ExprScan
