import ExprScan.Proofs.Scan.Append

/-! Literals that are left open. Each of them is one mark short of a token: a comment always the same
mark, a string one of two, by whether its last backslash still has something to escape. -/
namespace ExprScan

open Lexeme

def Scan.Terminated (scan : Scan) : Prop :=
  ∀ diagnostic ∈ scan.diagnostics,
    diagnostic.fault ≠ .unterminatedString ∧ diagnostic.fault ≠ .unterminatedComment

instance (scan : Scan) : Decidable scan.Terminated :=
  inferInstanceAs (Decidable (∀ _ ∈ _, _))

def stringMarks : List String := ["\"", "\\\""]

/-- With a mark behind the text, all of it from an offset on is one more token, and the last diagnostic
is gone. -/
structure ClosedBy (dialect : Dialect) (source mark : String) (kind : Kind) (start : Offset) :
    Prop where
  tokens : ∃ rest, Span.slice? ⟨start, source.utf8ByteSize⟩ source = some rest ∧
    (Scan.ofString dialect (source ++ mark)).tokens =
      (Scan.ofString dialect source).tokens ++ [⟨kind, rest ++ mark⟩]
  diagnostics : (Scan.ofString dialect (source ++ mark)).diagnostics =
    (Scan.ofString dialect source).diagnostics.dropLast

variable {dialect : Dialect} {source mark : String} {kind : Kind} {fault : Fault} {first : Char}
  {text : List Char} {done : List Piece} {last : Piece}

private theorem closedOnce_append_mark (h : Cut.closeComment? text = none) :
    ClosedOnce (text ++ ['*', '/']) := by
  fun_induction Cut.closeComment? text with
  | case1 => exact closedOnce_cons_iff.mpr (.inl ⟨rfl, rfl⟩)
  | case2 text => cases h
  | case3 c text hother ih =>
    refine closedOnce_cons_iff.mpr (.inr ⟨ih (Option.map_eq_none_iff.mp h), ?_⟩)
    intro rest hs hr
    cases text with
    | nil => cases hr
    | cons d text => exact hother text hs (by rw [(List.cons.inj hr).1])

/-- Behind a string that is left open one of the two marks closes it, and the other one does not. -/
private theorem stringTail_append_mark (h : Cut.closeString? text = none) :
    StringTail (text ++ ['"']) ∧ Cut.closeString? (text ++ ['\\', '"']) = none ∨
      StringTail (text ++ ['\\', '"']) ∧ Cut.closeString? (text ++ ['"']) = none := by
  have hquote : StringTail ['"'] := ⟨[], by simp, rfl⟩
  fun_induction Cut.closeString? text with
  | case1 => exact .inl ⟨hquote, rfl⟩
  | case2 text => cases h
  | case3 c text ih =>
    rcases ih (Option.map_eq_none_iff.mp h) with ⟨ht, hn⟩ | ⟨ht, hn⟩
    · exact .inl ⟨ht.escape c, Option.map_eq_none_iff.mpr hn⟩
    · exact .inr ⟨ht.escape c, Option.map_eq_none_iff.mpr hn⟩
  | case4 c text hq he ih =>
    by_cases hc : c = '\\'
    · -- the last backslash takes the first character of the mark along
      cases text with
      | nil =>
        subst hc
        exact .inr ⟨hquote.escape '\\', rfl⟩
      | cons d text => exact (he d text hc rfl).elim
    · have hopen (mark : List Char) (hn : Cut.closeString? (text ++ mark) = none) :
          Cut.closeString? (c :: text ++ mark) = none := by
        rw [List.cons_append, Cut.closeString?.eq_4 _ _ hq fun _ _ hb => (hc hb).elim, hn]
        rfl
      rcases ih (Option.map_eq_none_iff.mp h) with ⟨ht, hn⟩ | ⟨ht, hn⟩
      · exact .inl ⟨ht.plain hq hc, hopen _ hn⟩
      · exact .inr ⟨ht.plain hq hc, hopen _ hn⟩

private theorem exists_mark (h : Cut.closeString? text = none) :
    ∃ mark other : String, (∀ m, m ∈ stringMarks ↔ m = mark ∨ m = other) ∧
      StringTail (text ++ mark.toList) ∧ Cut.closeString? (text ++ other.toList) = none := by
  rcases stringTail_append_mark h with hquote | hescaped
  · exact ⟨"\"", "\\\"", by simp [stringMarks], hquote⟩
  · exact ⟨"\\\"", "\"", by simp [stringMarks, or_comm], hescaped⟩

private theorem open_of_label (h : (Cut.of dialect first text).label = .fault fault)
    (hf : fault ≠ .unknownCharacter) : Open (first :: text) fault := by
  have houtcome := Cut.of_outcome dialect first text
  generalize Cut.of dialect first text = cut at h houtcome
  cases houtcome with
  | token _ => cases h
  | opened ho => rwa [← Label.fault.inj h]
  | skipped _ =>
    dsimp only at h
    split at h
    · cases h
    · exact (hf (Label.fault.inj h).symm).elim

private theorem eq_quote_of_label
    (h : (Cut.of dialect first text).label = .fault .unterminatedString) :
    first = '"' ∧ Cut.closeString? text = none := by
  cases open_of_label h (by decide) with
  | string hp _ =>
    obtain ⟨rest, he⟩ := hp
    rw [List.singleton_append] at he
    obtain ⟨rfl, rfl⟩ := List.cons.inj he
    rw [Cut.of_quote, Cut.string] at h
    split at h
    · cases h
    · exact ⟨rfl, ‹_›⟩

private theorem eq_slash_of_label
    (h : (Cut.of dialect first text).label = .fault .unterminatedComment) :
    first = '/' ∧ ∃ body, text = '*' :: body ∧ Cut.closeComment? body = none := by
  cases open_of_label h (by decide) with
  | comment hp _ =>
    obtain ⟨rest, he⟩ := hp
    obtain ⟨rfl, rfl⟩ := List.cons.inj he
    change (Cut.blockComment rest).label = _ at h
    rw [Cut.blockComment] at h
    split at h
    · cases h
    · exact ⟨rfl, rest, rfl, ‹_›⟩

private theorem exists_last_piece {diagnostic : Diagnostic}
    (hd : diagnostic ∈ (Scan.ofString dialect source).diagnostics)
    (hf : diagnostic.fault ≠ .unknownCharacter) :
    ∃ done last first text, (Scan.ofString dialect source).pieces = done ++ [last] ∧
      last.label = .fault diagnostic.fault ∧ last.span = diagnostic.span ∧
      last.text = first :: text ∧ (Cut.of dialect first text).label = .fault diagnostic.fault := by
  obtain ⟨done, last, later, hs, hlabel, hspan⟩ := exists_split_of_mem_diagnostics hd
  obtain rfl := (scan_pieces_tiling dialect source).unterminated _ _ _ _ hs hlabel hf
  obtain ⟨first, text, -, rfl, -⟩ := pieces_split hs
  have hmore := Cut.of_more_append_rest dialect first text
  rw [rest_eq_nil_of_label hlabel hf, List.append_nil] at hmore
  exact ⟨done, _, first, text, hs, hlabel, hspan, congrArg (first :: ·) hmore, hlabel⟩

private theorem segments_of_lexeme (h : Lexeme dialect kind text) :
    segments dialect text = [⟨.token kind, text⟩] := by
  cases text with
  | nil => exact (not_lexeme_nil h).elim
  | cons first more => exact Segment.whole_mk_iff.mpr (lexeme_cons_iff.mp h)

section

variable (h : (Scan.ofString dialect source).pieces = done ++ [last])
include h

private theorem pieces_append_last (mark : String) :
    (Scan.ofString dialect (source ++ mark)).pieces =
      done ++ Piece.place last.span.start (segments dialect (last.text ++ mark.toList)) := by
  have hends := endsBefore_append h (List.cons_ne_nil _ _) mark.toList
  rw [pieces_append_of_endsBefore mark h hends, (scan_pieces_tiling dialect source).span _ _ _ h]
  simp

private theorem closedBy_of_lexeme (hl : last.label = .fault fault)
    (ht : Lexeme dialect kind (last.text ++ mark.toList)) :
    ClosedBy dialect source mark kind last.span.start := by
  have htiling := scan_pieces_tiling dialect source
  have hstop : last.span.stop = source.utf8ByteSize := by
    rw [htiling.span _ _ _ h, ← h, htiling.text, byteSize_toList]
  have hslice : Span.slice? ⟨last.span.start, source.utf8ByteSize⟩ source =
      some (String.ofList last.text) := by
    rw [← hstop]
    exact htiling.slice h
  obtain ⟨span, hpieces⟩ : ∃ span, (Scan.ofString dialect (source ++ mark)).pieces =
      done ++ [⟨⟨.token kind, last.text ++ mark.toList⟩, span⟩] := by
    rw [pieces_append_last h, segments_of_lexeme ht]
    exact ⟨_, rfl⟩
  constructor
  case tokens =>
    have hlast : last.token? = none := by simp [Piece.token?, hl]
    have htoken : Piece.token? ⟨⟨.token kind, last.text ++ mark.toList⟩, span⟩ =
        some ⟨kind, String.ofList last.text ++ mark⟩ := by
      simp [Piece.token?, String.ofList_append]
    refine ⟨_, hslice, ?_⟩
    simp [Scan.tokens, h, hpieces, hlast, htoken]
  case diagnostics =>
    have hlast : last.diagnostic? = some ⟨fault, last.span⟩ := by simp [Piece.diagnostic?, hl]
    have hnone : Piece.diagnostic? ⟨⟨.token kind, last.text ++ mark.toList⟩, span⟩ = none := rfl
    simp [Scan.diagnostics, h, hpieces, hlast, hnone]

private theorem not_terminated_of_open (hq : last.text = '"' :: text)
    (hc : Cut.closeString? (text ++ mark.toList) = none) :
    ¬ (Scan.ofString dialect (source ++ mark)).Terminated := by
  have hpieces := pieces_append_last h mark
  rw [hq, List.cons_append, Piece.place_segments_cons, Cut.of_quote, Cut.string, hc] at hpieces
  obtain ⟨piece, hp, hlabel⟩ : ∃ piece ∈ (Scan.ofString dialect (source ++ mark)).pieces,
      piece.label = .fault .unterminatedString := by
    rw [hpieces]
    exact ⟨_, List.mem_append_right _ List.mem_cons_self, rfl⟩
  have hdiagnostic : piece.diagnostic? = some ⟨.unterminatedString, piece.span⟩ :=
    Piece.diagnostic?_eq_some_iff.mpr ⟨hlabel, rfl⟩
  intro ht
  exact (ht ⟨_, piece.span⟩ (List.mem_filterMap.mpr ⟨piece, hp, hdiagnostic⟩)).1 rfl

end

private theorem ClosedBy.terminated {start : Offset} (h : ClosedBy dialect source mark kind start) :
    (Scan.ofString dialect (source ++ mark)).Terminated := by
  intro diagnostic hd
  rw [h.diagnostics] at hd
  obtain ⟨before, after, hs⟩ := List.append_of_mem hd
  have hne : (Scan.ofString dialect source).diagnostics ≠ [] := by
    intro hnil
    rw [hnil] at hd
    cases hd
  have hall := List.dropLast_concat_getLast hne
  rw [hs, List.append_assoc, List.cons_append] at hall
  have hunknown : diagnostic.fault = .unknownCharacter := by
    by_contra hf
    have hafter := (scan_pieces_tiling dialect source).inPlace.unterminated _ _ _ hall.symm hf
    simp at hafter
  simp [hunknown]

/-- A text in which a literal is left open is one mark short of a text in which that literal is a
token. For a comment the mark is always the same. For a string exactly one of two marks does it. -/
theorem scan_closed (dialect : Dialect) (source : String) :
    ∀ diagnostic ∈ (Scan.ofString dialect source).diagnostics,
      (diagnostic.fault = .unterminatedComment →
        ClosedBy dialect source "*/" .comment diagnostic.span.start) ∧
      (diagnostic.fault = .unterminatedString →
        (∃! mark, mark ∈ stringMarks ∧ (Scan.ofString dialect (source ++ mark)).Terminated) ∧
        ∀ mark ∈ stringMarks, (Scan.ofString dialect (source ++ mark)).Terminated →
          ClosedBy dialect source mark .string diagnostic.span.start) := by
  intro diagnostic hd
  refine ⟨?_, ?_⟩
  · intro hf
    obtain ⟨done, last, first, text, hs, hl, hspan, htext, hlabel⟩ :=
      exists_last_piece hd (by simp [hf])
    rw [hf] at hlabel
    obtain ⟨rfl, body, rfl, hc⟩ := eq_slash_of_label hlabel
    rw [← hspan]
    refine closedBy_of_lexeme hs hl (.inr ⟨body ++ ['*', '/'], ?_, closedOnce_append_mark hc⟩)
    rw [htext]
    rfl
  · intro hf
    obtain ⟨done, last, first, text, hs, hl, hspan, htext, hlabel⟩ :=
      exists_last_piece hd (by simp [hf])
    rw [hf] at hlabel
    obtain ⟨rfl, hc⟩ := eq_quote_of_label hlabel
    have hclosed (mark : String) (ht : StringTail (text ++ mark.toList)) :
        ClosedBy dialect source mark .string diagnostic.span.start := by
      rw [← hspan]
      refine closedBy_of_lexeme hs hl ?_
      rw [htext]
      exact quoted_cons_iff.mpr ⟨rfl, ht⟩
    obtain ⟨mark, other, hmarks, ht, hn⟩ := exists_mark hc
    have hterminated := (hclosed mark ht).terminated
    have heq : ∀ m ∈ stringMarks, (Scan.ofString dialect (source ++ m)).Terminated → m = mark := by
      intro m hm hm'
      refine ((hmarks m).mp hm).resolve_right ?_
      rintro rfl
      exact not_terminated_of_open hs htext hn hm'
    refine ⟨⟨mark, ⟨(hmarks mark).mpr (.inl rfl), hterminated⟩, fun m hm => heq m hm.1 hm.2⟩, ?_⟩
    intro m hm hm'
    rw [heq m hm hm']
    exact hclosed mark ht

/-- A comment that could seem closed, and a string that ends in the middle of an escape. -/
theorem scan_closed_escape :
    ClosedBy .standard "$ /*/" "*/" .comment 2 ∧
    ClosedBy .standard "x \"a\\" "\\\"" .string 2 :=
  ⟨(scan_closed .standard "$ /*/" ⟨.unterminatedComment, ⟨2, 5⟩⟩ (by decide +kernel)).1 rfl,
    ((scan_closed .standard "x \"a\\" ⟨.unterminatedString, ⟨2, 5⟩⟩ (by decide +kernel)).2 rfl).2
      "\\\"" (by decide) (by decide +kernel)⟩

end ExprScan
