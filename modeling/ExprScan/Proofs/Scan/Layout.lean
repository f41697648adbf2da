import ExprScan.Proofs.Scan.Longest

/-! Printing tokens and scanning the text. The tokens come back exactly where none of them runs into
what stands behind it. -/
namespace ExprScan

open Lexeme

variable {dialect : Dialect} {kind : Kind} {first c : Char} {start : Nat} {cut : Cut}
  {more text after gap : List Char}

theorem plain_of_isBlank (h : isBlank c) : c.isDigit = false ∧ ¬ isWordStart c := by
  simp [isBlank, blankRanges] at h
  rw [isWordStart_iff]
  simp [Char.isDigit, UInt32.le_iff_toNat_le]
  omega

theorem Cut.of_blank (h : isBlank c) : Cut.of dialect c text = ⟨.blank, [], text⟩ := by
  obtain ⟨hd, hw⟩ := plain_of_isBlank h
  have hq : c ≠ '"' := by rintro rfl; revert h; decide
  have hs : c ≠ '/' := by rintro rfl; revert h; decide
  have ho : ¬ isOperatorStart c := by
    intro ho
    obtain ⟨-, -, -, hb⟩ := plain_of_isOperatorStart ho
    rw [h] at hb
    cases hb
  simp [Cut.of, hd, hw, hq, hs, ho, Cut.skip, h]

namespace Scan

def behind (dialect : Dialect) (start : Nat) (text : List Char) : Scan :=
  ⟨Piece.place start (segments dialect text)⟩

private theorem tokens_behind_cons (h : Cut.of dialect first text = cut) :
    (behind dialect start (first :: text)).tokens = (cut.piece first start).token?.toList ++
      (behind dialect (start + byteSize (first :: cut.more)) cut.rest).tokens := by
  subst h
  rw [tokens, behind, Piece.place_segments_cons, filterMap_cons_toList]
  rfl

private theorem diagnostics_behind_cons (h : Cut.of dialect first text = cut) :
    (behind dialect start (first :: text)).diagnostics =
      (cut.piece first start).diagnostic?.toList ++
        (behind dialect (start + byteSize (first :: cut.more)) cut.rest).diagnostics := by
  subst h
  rw [diagnostics, behind, Piece.place_segments_cons, filterMap_cons_toList]
  rfl

private theorem tokens_behind_nil : (behind dialect start []).tokens = [] := by
  simp [behind, tokens, segments, Piece.place]

private theorem diagnostics_behind_nil : (behind dialect start []).diagnostics = [] := by
  simp [behind, diagnostics, segments, Piece.place]

private theorem behind_blanks (dialect : Dialect) (start : Nat) (text : List Char)
    (h : ∀ c ∈ gap, isBlank c) : ∃ stop,
    (behind dialect start (gap ++ text)).tokens = (behind dialect stop text).tokens ∧
      (behind dialect start (gap ++ text)).diagnostics =
        (behind dialect stop text).diagnostics := by
  induction gap generalizing start with
  | nil => exact ⟨start, rfl, rfl⟩
  | cons c gap ih =>
    rw [List.forall_mem_cons] at h
    have hcut : Cut.of dialect c (gap ++ text) = ⟨.blank, [], gap ++ text⟩ := Cut.of_blank h.1
    rw [List.cons_append, tokens_behind_cons hcut, diagnostics_behind_cons hcut]
    exact ih _ h.2

/-- A lexeme is scanned as itself if and only if the text behind it lets it end. -/
theorem tokens_behind_lexeme_iff (start : Nat) (after : List Char) (tokens : List Token)
    {lexeme : List Char} (h : Lexeme dialect kind lexeme) :
    ∃ stop, ((behind dialect start (lexeme ++ after)).tokens =
        ⟨kind, String.ofList lexeme⟩ :: tokens ↔
      endsBefore kind lexeme after.head? ∧ (behind dialect stop after).tokens = tokens) := by
  cases lexeme with
  | nil => exact (not_lexeme_nil h).elim
  | cons first more =>
    have ht := lexemeTail_of_lexeme h
    refine ⟨start + byteSize (first :: more), ?_⟩
    by_cases he : endsBefore kind (first :: more) after.head?
    · rw [List.cons_append, tokens_behind_cons ((ht.of_eq_iff after).mpr he)]
      simp [he, Cut.piece, Piece.token?]
    · simp only [he, Bool.false_eq_true, false_and, iff_false]
      intro htokens
      apply he
      rw [← ht.of_eq_iff]
      -- the first piece must be the token, and then nothing else can have become of the lexeme
      have hsplit := Cut.of_more_append_rest dialect first (more ++ after)
      have houtcome := Cut.of_outcome dialect first (more ++ after)
      rw [List.cons_append, tokens_behind_cons rfl] at htokens
      generalize Cut.of dialect first (more ++ after) = cut at *
      cases houtcome with
      | token _ =>
        obtain ⟨hfirst, -⟩ := List.cons.inj htokens
        obtain ⟨rfl, hlexeme⟩ := Token.mk.inj hfirst
        obtain ⟨-, rfl⟩ := List.cons.inj (String.ofList_injective hlexeme)
        cases List.append_cancel_left hsplit
        rfl
      | opened _ =>
        rw [tokens_behind_nil] at htokens
        cases htokens
      | skipped hn => exact (hn kind more (List.prefix_append _ _) ht).elim

private theorem diagnostics_behind_lexeme (start : Nat) {lexeme : List Char}
    (h : Lexeme dialect kind lexeme) (he : endsBefore kind lexeme after.head?) :
    ∃ stop, (behind dialect start (lexeme ++ after)).diagnostics =
      (behind dialect stop after).diagnostics := by
  cases lexeme with
  | nil => exact (not_lexeme_nil h).elim
  | cons first more =>
    have hcut := ((lexemeTail_of_lexeme h).of_eq_iff after).mpr he
    rw [List.cons_append, diagnostics_behind_cons hcut]
    exact ⟨_, rfl⟩

end Scan

namespace Layout

variable {layout later : Layout} {token : Token}

private theorem printable_cons_iff : Printable dialect ((token, gap) :: later) ↔
    (Lexeme dialect token.kind token.lexeme.toList ∧ ∀ c ∈ gap, isBlank c) ∧
      Printable dialect later := by
  constructor
  · intro h
    exact ⟨h token gap List.mem_cons_self, fun _ _ hm => h _ _ (List.mem_cons_of_mem _ hm)⟩
  · rintro ⟨hfirst, hlater⟩ other blanks hm
    rcases List.mem_cons.mp hm with he | hm
    · cases he
      exact hfirst
    · exact hlater other blanks hm

instance (dialect : Dialect) (layout : Layout) : Decidable (layout.Printable dialect) :=
  decidable_of_iff
    (layout.all fun (token, gap) =>
      decide (Lexeme dialect token.kind token.lexeme.toList) && gap.all isBlank)
    (by simp [Printable])

private theorem text_cons : Layout.text ((token, gap) :: later) =
    token.lexeme.toList ++ (gap ++ later.text) := by
  simp [Layout.text]

private theorem tokens_behind_iff (h : Printable dialect layout) :
    (Scan.behind dialect start layout.text).tokens = layout.map Prod.fst ↔ layout.admissible := by
  induction layout generalizing start with
  | nil => simp [Layout.text, Scan.tokens_behind_nil, admissible]
  | cons entry later ih =>
    obtain ⟨token, gap⟩ := entry
    obtain ⟨⟨hlexeme, hgap⟩, hlater⟩ := printable_cons_iff.mp h
    obtain ⟨stop, hiff⟩ := Scan.tokens_behind_lexeme_iff start (gap ++ Layout.text later)
      (later.map Prod.fst) hlexeme
    obtain ⟨next, hblanks, -⟩ := Scan.behind_blanks dialect stop (Layout.text later) hgap
    rw [String.ofList_toList] at hiff
    rw [text_cons, List.map_cons, hiff, hblanks, ih hlater]
    simp [admissible]

private theorem diagnostics_behind (h : Printable dialect layout) (ha : layout.admissible) :
    (Scan.behind dialect start layout.text).diagnostics = [] := by
  induction layout generalizing start with
  | nil => simp [Layout.text, Scan.diagnostics_behind_nil]
  | cons entry later ih =>
    obtain ⟨token, gap⟩ := entry
    obtain ⟨⟨hlexeme, hgap⟩, hlater⟩ := printable_cons_iff.mp h
    obtain ⟨hends, hrest⟩ := Bool.and_eq_true_iff.mp ha
    obtain ⟨stop, hstop⟩ := Scan.diagnostics_behind_lexeme start hlexeme hends
    obtain ⟨next, -, hblanks⟩ := Scan.behind_blanks dialect stop (Layout.text later) hgap
    rw [text_cons, hstop, hblanks]
    exact ih hlater hrest

end Layout

/-- A printed list of tokens is scanned as itself if and only if every gap lets the token before it
end, and then there is nothing to report. -/
theorem scan_layout (dialect : Dialect) (lead : List Char) (layout : Layout)
    (hlead : ∀ c ∈ lead, isBlank c) (h : layout.Printable dialect) :
    ((Scan.ofString dialect (String.ofList (lead ++ layout.text))).tokens = layout.map Prod.fst ↔
      layout.admissible) ∧
    (layout.admissible →
      (Scan.ofString dialect (String.ofList (lead ++ layout.text))).diagnostics = []) := by
  have hbehind : Scan.ofString dialect (String.ofList (lead ++ layout.text)) =
      Scan.behind dialect 0 (lead ++ layout.text) := by
    rw [Scan.ofString, String.toList_ofList]
    rfl
  obtain ⟨stop, htokens, hdiagnostics⟩ := Scan.behind_blanks dialect 0 layout.text hlead
  rw [hbehind, htokens, hdiagnostics]
  exact ⟨Layout.tokens_behind_iff h, Layout.diagnostics_behind h⟩

theorem scan_layout_comparison :
    (∀ c ∈ ['\u3000'], isBlank c) ∧
    Layout.Printable .standard
      [(⟨.identifier, "a"⟩, ['\u00a0']), (⟨.operator, "<"⟩, []), (⟨.float, "1."⟩, [])] ∧
    (Scan.ofString .standard (String.ofList (['\u3000'] ++ Layout.text
      [(⟨.identifier, "a"⟩, ['\u00a0']), (⟨.operator, "<"⟩, []), (⟨.float, "1."⟩, [])]))).tokens =
        [⟨.identifier, "a"⟩, ⟨.operator, "<"⟩, ⟨.float, "1."⟩] :=
  ⟨List.forall_mem_singleton.mpr (by decide), by decide,
    (scan_layout .standard _ _ (List.forall_mem_singleton.mpr (by decide)) (by decide)).1.mpr
      (by decide)⟩

end ExprScan
