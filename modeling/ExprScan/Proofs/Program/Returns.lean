import ExprScan.Proofs.Program.Parity
import ExprScan.Proofs.Report.Excerpt
import ExprScan.Proofs.Scan.Returns

/-! What is found in a text, and what is told about it, does not depend on how its lines end: with
carriage returns in front of its newlines the text gives the same tokens but for carriage returns in
strings and comments, the same verdict, and the same excerpts. -/
namespace ExprScan

variable {dialect : Dialect} {source : String} {piece other : Piece}

def crlf (source : String) : String := String.ofList (withReturns source.toList)

def Token.withoutReturns (token : Token) : Token :=
  ⟨token.kind, String.ofList (ExprScan.withoutReturns token.lexeme.toList)⟩

private theorem shown_firstLine_withReturns (text : List Char) :
    shown (firstLine (withReturns text)) = shown (firstLine text) := by
  rcases eq_firstLine_append_or text with h | ⟨line, rest, rfl, h⟩
  · rw [withReturns_of_not_mem h]
  · have hreturn : '\n' ∉ line ++ ['\r'] := by simp [h]
    have hline : firstLine (line ++ '\n' :: rest) = line ++ ['\n'] :=
      firstLine_append_of_not_mem h _
    have hlonger : firstLine (line ++ ['\r'] ++ '\n' :: withReturns rest) =
        line ++ ['\r'] ++ ['\n'] :=
      firstLine_append_of_not_mem hreturn _
    rw [withReturns_append, withReturns_newline_cons, withReturns_of_not_mem h, List.append_cons,
      hline, hlonger, shown_append, shown_append, shown_append]
    simp [shown]

private theorem Excerpt.around_withReturns (fault : Fault) (before text after : List Char) :
    Excerpt.around fault (withReturns before) (withReturns text) (withReturns after) =
      Excerpt.around fault before text after := by
  have hmarked : beforeBreak (withReturns text) = beforeBreak text :=
    takeWhile_withReturns (by decide) (by decide) text
  simp only [Excerpt.around, shown_append, ← withReturns_append, shown_firstLine_withReturns,
    count_newline_withReturns, lastLine_withReturns, hmarked]

namespace Piece.Returned

private theorem token?_eq (h : Piece.Returned source.toList piece other)
    (hplain : '\r' ∉ source.toList) : other.token?.map Token.withoutReturns = piece.token? := by
  obtain ⟨before, after, hsource, -, -⟩ := h.place
  have hpiece : '\r' ∉ piece.text := by
    intro hm
    apply hplain
    rw [hsource]
    simp [hm]
  have htext : withoutReturns other.text = piece.text := by
    rcases h.text with he | ⟨-, he⟩
    · rw [he, withoutReturns_withReturns hpiece]
    · rw [he, withoutReturns, List.filter_append, ← withoutReturns,
        withoutReturns_withReturns hpiece]
      exact List.append_nil _
  have hlabel := h.label
  cases hl : piece.label <;> simp [token?, hlabel, hl, Token.withoutReturns, htext]

private theorem diagnostic?_eq (h : Piece.Returned source.toList piece other) :
    other.diagnostic?.map (fun diagnostic =>
        (diagnostic.fault, Excerpt.of? (crlf source) diagnostic)) =
      piece.diagnostic?.map (fun diagnostic =>
        (diagnostic.fault, Excerpt.of? source diagnostic)) := by
  obtain ⟨before, after, hsource, hspan, hother⟩ := h.place
  have hlabel := h.label
  cases hl : piece.label with
  | token kind => simp [diagnostic?, hlabel, hl]
  | blank => simp [diagnostic?, hlabel, hl]
  | fault fault =>
    have htext : other.text = withReturns piece.text := by
      rcases h.text with he | ⟨hc, -⟩
      · exact he
      · rw [hl] at hc
        cases hc
    have hcrlf : (crlf source).toList =
        withReturns before ++ (withReturns piece.text ++ withReturns after) := by
      rw [crlf, String.toList_ofList, hsource, withReturns_append, withReturns_append]
    rw [htext] at hother
    simp only [diagnostic?, hlabel, hl, hspan, hother, Option.map_some, Excerpt.of?_eq fault hsource,
      Excerpt.of?_eq fault hcrlf, Excerpt.around_withReturns]

end Piece.Returned

private theorem filterMap_filter_isMarked {β : Type} {f : Piece → Option β}
    (h : ∀ piece : Piece, piece.label = .blank → f piece = none) (pieces : List Piece) :
    (pieces.filter Piece.isMarked).filterMap f = pieces.filterMap f := by
  rw [List.filterMap_filter]
  apply List.filterMap_congr
  intro piece _
  split
  · rfl
  · next hm => exact (h piece (by simpa [Piece.isMarked] using hm)).symm

private theorem filterMap_returned {β : Type} (dialect : Dialect) (source : String)
    {f g : Piece → Option β} (hf : ∀ piece : Piece, piece.label = .blank → f piece = none)
    (hg : ∀ piece : Piece, piece.label = .blank → g piece = none)
    (h : ∀ piece other, Piece.Returned source.toList piece other → g other = f piece) :
    (Scan.ofString dialect (crlf source)).pieces.filterMap g =
      (Scan.ofString dialect source).pieces.filterMap f := by
  have hpieces := forall₂_returned dialect [] source.toList
  rw [← filterMap_filter_isMarked hf, ← filterMap_filter_isMarked hg, Scan.ofString, Scan.ofString,
    crlf, String.toList_ofList, eq_comm, ← List.forall₂_eq_eq_eq]
  refine List.rel_filterMap ?_ hpieces
  intro piece other hreturned
  rw [h piece other hreturned]
  cases f piece with
  | none => exact .none
  | some entry => exact .some rfl

private theorem tokens_withReturns (dialect : Dialect) (h : '\r' ∉ source.toList) :
    (Scan.ofString dialect (crlf source)).tokens.map Token.withoutReturns =
      (Scan.ofString dialect source).tokens := by
  rw [Scan.tokens, List.map_filterMap]
  apply filterMap_returned
  · intro piece hl
    simp [Piece.token?, hl]
  · intro piece hl
    simp [Piece.token?, hl]
  · intro piece other hreturned
    exact hreturned.token?_eq h

private theorem excerpts_withReturns (dialect : Dialect) (source : String) :
    (Scan.ofString dialect (crlf source)).diagnostics.map
        (fun diagnostic => (diagnostic.fault, Excerpt.of? (crlf source) diagnostic)) =
      (Scan.ofString dialect source).diagnostics.map
        (fun diagnostic => (diagnostic.fault, Excerpt.of? source diagnostic)) := by
  rw [Scan.diagnostics, Scan.diagnostics, List.map_filterMap, List.map_filterMap]
  apply filterMap_returned
  · intro piece hl
    simp [Piece.diagnostic?, hl]
  · intro piece hl
    simp [Piece.diagnostic?, hl]
  · intro piece other hreturned
    exact hreturned.diagnostic?_eq

private theorem verdict_withReturns (dialect : Dialect) (h : '\r' ∉ source.toList) :
    (recognize (Scan.ofString dialect (crlf source)).tokens).verdict =
      (recognize (Scan.ofString dialect source).tokens).verdict := by
  have hcomment : (fun token : Token => !token.isComment) ∘ Token.withoutReturns =
      fun token => !token.isComment := rfl
  rw [recognize_verdict, recognize_verdict, ← tokens_withReturns dialect h, List.filter_map,
    hcomment, Automaton.start, ← visibleTokens]
  refine (Automaton.run_map ?_ ?_ ?_ .term).symm
  · intro token
    rfl
  · intro token ht
    obtain ⟨hlexeme, hvisible⟩ := lexeme_of_mem_visibleTokens ht
    by_cases ho : token.kind.isOperand
    · exact .inl ho
    have hkind := Kind.keyword_or_operator hvisible ho
    have hreturn := not_mem_of_lexeme hlexeme hkind (c := '\r') (by decide)
    have htext : ExprScan.withoutReturns token.lexeme.toList = token.lexeme.toList :=
      List.filter_eq_self.mpr (forall_ne_of_not_mem hreturn)
    right
    rw [Token.withoutReturns, htext, String.ofList_toList]
  · intro token
    exact not_open_of_mem_visibleTokens

/-- A text and its form with carriage returns at the ends of its lines give the same tokens but for
carriage returns, the same faults and the same verdict, and their diagnostics are shown in the same
way. -/
theorem scan_crlf (dialect : Dialect) (source : String) (h : '\r' ∉ source.toList) :
    (Scan.ofString dialect (crlf source)).tokens.map Token.withoutReturns =
      (Scan.ofString dialect source).tokens ∧
    (Scan.ofString dialect (crlf source)).diagnostics.map Diagnostic.fault =
      (Scan.ofString dialect source).diagnostics.map Diagnostic.fault ∧
    (recognize (Scan.ofString dialect (crlf source)).tokens).verdict =
      (recognize (Scan.ofString dialect source).tokens).verdict ∧
    (Scan.ofString dialect (crlf source)).diagnostics.map (Excerpt.of? (crlf source)) =
      (Scan.ofString dialect source).diagnostics.map (Excerpt.of? source) ∧
    (Scan.ofString dialect (crlf source)).diagnostics.map (Diagnostic.render (crlf source)) =
      (Scan.ofString dialect source).diagnostics.map (Diagnostic.render source) := by
  have hexcerpts := excerpts_withReturns dialect source
  have hview {β : Type} (f : Fault × Option Excerpt → β) := congrArg (List.map f) hexcerpts
  simp only [List.map_map] at hview
  have hrender (source : String) : Diagnostic.render source =
      (fun entry : Fault × Option Excerpt => entry.2.elim [entry.1.describe] Excerpt.render) ∘
        fun diagnostic => (diagnostic.fault, Excerpt.of? source diagnostic) := by
    funext diagnostic
    rw [Diagnostic.render, Function.comp_apply]
    cases Excerpt.of? source diagnostic <;> rfl
  refine ⟨tokens_withReturns dialect h, hview Prod.fst, verdict_withReturns dialect h,
    hview Prod.snd, ?_⟩
  rw [hrender, hrender]
  exact hview _

theorem scan_crlf_comment : '\r' ∉ "a // b\n $".toList ∧
    (Scan.ofString .standard "a // b\r\n $").tokens.map Token.withoutReturns =
      [⟨.identifier, "a"⟩, ⟨.comment, "// b"⟩] ∧
    (Scan.ofString .standard "a // b\r\n $").diagnostics.map (Diagnostic.render "a // b\r\n $") =
      [["2|  $", " |  ^--- Unknown character"]] := by
  have hplain : '\r' ∉ "a // b\n $".toList := by decide
  have hreturned : crlf "a // b\n $" = "a // b\r\n $" := by decide
  have hscan := scan_crlf .standard "a // b\n $" hplain
  rw [hreturned] at hscan
  exact ⟨hplain, hscan.1.trans (by decide +kernel), hscan.2.2.2.2.trans (by decide +kernel)⟩

end ExprScan
