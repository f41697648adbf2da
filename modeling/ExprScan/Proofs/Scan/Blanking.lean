import ExprScan.Proofs.Expression.Automaton
import ExprScan.Proofs.Scan.Partition
import ExprScan.Scan.Blanking

/-! Comments and skipped text mean no more than a blank. With one space in the place of each of them a
text is cut as before, and an expression is read from its tokens as before. -/
namespace ExprScan

variable {dialect : Dialect} {segment : Segment} {list : List Segment}

namespace Segment

def isIdle (segment : Segment) : Bool :=
  match segment.label with
  | .token kind => kind = .comment
  | .fault _ => true
  | .blank => false

/-- A segment, or a space in the place of a comment or of text that forms no token. -/
def blanked (segment : Segment) : Segment :=
  if segment.isIdle then ⟨.blank, [' ']⟩ else segment

private theorem whole_blanked (h : segment.Whole dialect) : segment.blanked.Whole dialect := by
  have hspace : isBlank ' ' := by decide
  rw [blanked]
  split
  · exact whole_mk_iff.mpr (Cut.of_blank hspace)
  · exact h

private theorem endsBefore_blanked {next other : Option Char} (h : segment.endsBefore next)
    (hn : other = next ∨ other = some ' ') : segment.blanked.endsBefore other := by
  have hspace : isBlank ' ' := by decide
  rw [blanked]
  split
  · rfl
  · next hidle =>
    rcases hn with rfl | rfl
    · exact h
    · refine endsBefore_of_isBlank hspace ?_ ?_
      · intro hl
        simp [isIdle, hl] at hidle
      · intro fault hl
        simp [isIdle, hl] at hidle

private theorem head?_text_blanked (h : segment.Whole dialect) (text after : List Char) :
    (segment.blanked.text ++ text).head? = (segment.text ++ after).head? ∨
      (segment.blanked.text ++ text).head? = some ' ' := by
  obtain ⟨first, more, ht, -⟩ := h.exists_cons
  rw [blanked]
  split
  · exact .inr rfl
  · simp [ht]

private theorem token?_blanked (segment : Segment) :
    segment.blanked.token? = segment.token?.filter (!·.isComment) := by
  obtain ⟨label, text⟩ := segment
  cases label with
  | token kind => cases kind <;> rfl
  | fault fault => rfl
  | blank => rfl

private theorem blanked_label_ne_fault (segment : Segment) (fault : Fault) :
    segment.blanked.label ≠ .fault fault := by
  obtain ⟨label, text⟩ := segment
  cases label with
  | token kind => cases kind <;> simp [blanked, isIdle]
  | fault other => simp [blanked, isIdle]
  | blank => simp [blanked, isIdle]

end Segment

/-- Blanking keeps a partition: no two segments that stay come closer to each other. -/
private theorem Partition.map_blanked (h : Partition dialect list) :
    Partition dialect (list.map Segment.blanked) := by
  induction list with
  | nil => trivial
  | cons segment later ih =>
    obtain ⟨hwhole, hends, hlater⟩ := h
    refine ⟨Segment.whole_blanked hwhole, Segment.endsBefore_blanked hends ?_, ih hlater⟩
    cases later with
    | nil => exact .inl rfl
    | cons second later => exact Segment.head?_text_blanked hlater.1 _ _

private theorem Piece.isIdle_eq (piece : Piece) : piece.isIdle = piece.toSegment.isIdle := by
  obtain ⟨⟨label, text⟩, span⟩ := piece
  cases label with
  | token kind => cases kind <;> rfl
  | fault fault => rfl
  | blank => rfl

private theorem Scan.toList_blanked (dialect : Dialect) (source : String) :
    (Scan.ofString dialect source).blanked.toList =
      ((segments dialect source.toList).map Segment.blanked).flatMap Segment.text := by
  rw [Scan.blanked, String.toList_ofList,
    ← Piece.map_toSegment_place 0 (segments dialect source.toList), List.map_map, List.flatMap_map]
  apply List.flatMap_congr
  intro piece _
  rw [Piece.isIdle_eq, Function.comp_apply, Segment.blanked]
  split <;> rfl

private theorem segments_blanked (dialect : Dialect) (source : String) :
    segments dialect (Scan.ofString dialect source).blanked.toList =
      (segments dialect source.toList).map Segment.blanked := by
  rw [Scan.toList_blanked, segments_flatMap_iff]
  exact (partition_segments dialect _).map_blanked

/-- Comments and text that forms no token count as blanks: a scan of the blanked text finds the other
tokens and nothing to report, and an expression is read from them as before. -/
theorem scan_blanked (dialect : Dialect) (source : String) :
    (Scan.ofString dialect (Scan.ofString dialect source).blanked).tokens =
        (Scan.ofString dialect source).tokens.filter (!·.isComment) ∧
      (Scan.ofString dialect (Scan.ofString dialect source).blanked).diagnostics = [] ∧
      (recognize (Scan.ofString dialect (Scan.ofString dialect source).blanked).tokens).verdict =
        (recognize (Scan.ofString dialect source).tokens).verdict := by
  have htokens : (Scan.ofString dialect (Scan.ofString dialect source).blanked).tokens =
      (Scan.ofString dialect source).tokens.filter (!·.isComment) := by
    rw [Scan.tokens_ofString, Scan.tokens_ofString, segments_blanked, List.filterMap_map,
      List.filter_filterMap]
    congr 1
    funext segment
    exact segment.token?_blanked
  refine ⟨htokens, ?_, ?_⟩
  · apply List.eq_nil_iff_forall_not_mem.mpr
    intro diagnostic hd
    obtain ⟨piece, hm, hp⟩ := List.mem_filterMap.mp hd
    have hs : piece.toSegment ∈ (Scan.ofString dialect _).pieces.map (·.toSegment) :=
      List.mem_map_of_mem hm
    rw [Scan.ofString, Piece.map_toSegment_place, segments_blanked] at hs
    obtain ⟨segment, -, he⟩ := List.mem_map.mp hs
    apply segment.blanked_label_ne_fault diagnostic.fault
    rw [he]
    exact (Piece.diagnostic?_eq_some_iff.mp hp).1
  · rw [recognize_verdict, recognize_verdict, htokens, List.filter_filter]
    simp only [Bool.and_self]

end ExprScan
