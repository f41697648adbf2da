import ExprScan.Scan.Basic

/-! The pieces of a scan, one at a time. Whatever precedes a piece, the piece is the first segment
of the rest of the text and covers the bytes right behind what precedes it. -/
namespace ExprScan

theorem filterMap_cons_toList {α β : Type} (f : α → Option β) (a : α) (later : List α) :
    (a :: later).filterMap f = (f a).toList ++ later.filterMap f := by
  cases h : f a <;> simp [h]

def Cut.piece (cut : Cut) (first : Char) (start : Nat) : Piece :=
  ⟨⟨cut.label, first :: cut.more⟩, ⟨start, start + byteSize (first :: cut.more)⟩⟩

def Segment.token? (segment : Segment) : Option Token :=
  match segment.label with
  | .token kind => some ⟨kind, String.ofList segment.text⟩
  | _ => none

namespace Piece

variable {dialect : Dialect} {start : Nat} {text : List Char} {pieces done later : List Piece}
  {piece : Piece}

theorem place_segments_cons (dialect : Dialect) (start : Nat) (first : Char) (text : List Char) :
    place start (segments dialect (first :: text)) =
      (Cut.of dialect first text).piece first start ::
        place (start + byteSize (first :: (Cut.of dialect first text).more))
          (segments dialect (Cut.of dialect first text).rest) := by
  rw [segments]
  rfl

theorem flatMap_text_place (start : Nat) (segments : List Segment) :
    (place start segments).flatMap (·.text) = segments.flatMap Segment.text := by
  induction segments generalizing start with
  | nil => rfl
  | cons segment later ih => simp [place, ih]

/-- A text splits in front of every piece, and the pieces from there on are those of the rest. -/
theorem place_segments_split
    (h : place start (segments dialect text) = done ++ piece :: later) :
    ∃ first rest, text = done.flatMap (·.text) ++ first :: rest ∧
      piece = (Cut.of dialect first rest).piece first (start + byteSize (done.flatMap (·.text))) ∧
      later = place piece.span.stop (segments dialect (Cut.of dialect first rest).rest) := by
  induction done generalizing start text with
  | nil =>
    cases text with
    | nil => simp [segments, place] at h
    | cons first rest =>
      rw [place_segments_cons] at h
      obtain ⟨rfl, rfl⟩ := List.cons.inj h
      exact ⟨first, rest, rfl, rfl, rfl⟩
  | cons before done ih =>
    cases text with
    | nil => simp [segments, place] at h
    | cons first rest =>
      rw [place_segments_cons] at h
      obtain ⟨rfl, htail⟩ := List.cons.inj h
      obtain ⟨second, behind, hrest, hpiece, hlater⟩ := ih htail
      refine ⟨second, behind, ?_, ?_, hlater⟩
      · rw [List.flatMap_cons, List.append_assoc, ← hrest]
        exact congrArg (first :: ·) (Cut.of_more_append_rest ..).symm
      · rw [hpiece, List.flatMap_cons, byteSize_append, Nat.add_assoc]
        rfl

theorem map_toSegment_place (start : Nat) (segments : List Segment) :
    (place start segments).map (·.toSegment) = segments := by
  induction segments generalizing start with
  | nil => rfl
  | cons segment later ih => simp [place, ih]

private theorem filterMap_token?_place (start : Nat) (segments : List Segment) :
    (place start segments).filterMap token? = segments.filterMap Segment.token? := by
  induction segments generalizing start with
  | nil => rfl
  | cons segment later ih =>
    rw [place, filterMap_cons_toList, filterMap_cons_toList, ih]
    rfl

theorem place_append (start : Nat) (front later : List Segment) :
    place start (front ++ later) =
      place start front ++ place (start + byteSize (front.flatMap Segment.text)) later := by
  induction front generalizing start with
  | nil => rfl
  | cons segment front ih => simp [place, ih, Nat.add_assoc]

theorem place_map_toSegment {segments : List Segment}
    (h : place start segments = done ++ later) : place start (done.map (·.toSegment)) = done := by
  have hlength (segments : List Segment) : (place start segments).length = segments.length := by
    rw [← List.length_map (·.toSegment), map_toSegment_place]
  have hmap := map_toSegment_place start segments
  rw [h, List.map_append] at hmap
  rw [← hmap, place_append] at h
  exact List.append_inj_left h (by rw [hlength, List.length_map])

/-- Bytes in front of a text shift its diagnostics. -/
theorem filterMap_diagnostic?_place_add (start count : Nat) (segments : List Segment) :
    (place (start + count) segments).filterMap diagnostic? =
      ((place start segments).filterMap diagnostic?).map (·.shift count) := by
  induction segments generalizing start with
  | nil => rfl
  | cons segment later ih =>
    rw [place, place, filterMap_cons_toList, filterMap_cons_toList, List.map_append,
      Nat.add_right_comm, ih]
    obtain ⟨label, text⟩ := segment
    cases label <;> simp [diagnostic?, Diagnostic.shift, Span.shift, Nat.add_right_comm]

/-- An entry stays where it is in all lists that start with the pieces up to the one it is of. -/
theorem getElem?_filterMap {β : Type} {f : Piece → Option β} {index : Nat} {entry : β}
    (h : (pieces.filterMap f)[index]? = some entry) :
    ∃ done piece later, pieces = done ++ piece :: later ∧ f piece = some entry ∧
      ∀ others, done ++ [piece] <+: others → (others.filterMap f)[index]? = some entry := by
  obtain ⟨hlt, hentry⟩ := List.getElem?_eq_some_iff.mp h
  have hsplit : pieces.filterMap f =
      (pieces.filterMap f).take index ++ entry :: (pieces.filterMap f).drop (index + 1) := by
    rw [← hentry, ← List.drop_eq_getElem_cons, List.take_append_drop]
  obtain ⟨front, rest, rfl, hfront, hrest⟩ := List.filterMap_eq_append_iff.mp hsplit
  obtain ⟨plain, piece, later, rfl, hplain, hpiece, -⟩ := List.filterMap_eq_cons_iff.mp hrest
  refine ⟨front ++ plain, piece, later, by simp, hpiece, ?_⟩
  rintro others ⟨more, rfl⟩
  have hlength : ((front ++ plain).filterMap f).length = index := by
    rw [List.filterMap_append, List.filterMap_eq_nil_iff.mpr hplain, List.append_nil, hfront,
      List.length_take]
    exact Nat.min_eq_left (Nat.le_of_lt hlt)
  rw [List.append_assoc, List.filterMap_append, List.singleton_append, filterMap_cons_toList,
    hpiece, ← hlength]
  simp

end Piece

theorem Scan.tokens_ofString (dialect : Dialect) (source : String) :
    (Scan.ofString dialect source).tokens =
      (segments dialect source.toList).filterMap Segment.token? :=
  Piece.filterMap_token?_place 0 _

end ExprScan
