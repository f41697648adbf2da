import ExprScan.Proofs.Scan.Append
import ExprScan.Proofs.Text.Returns

/-! Scanning a text with a carriage return in front of every newline. The text is cut at the same
places: carriage returns inside of strings and block comments belong to them, those behind line
comments join these, and the others are blanks. -/
namespace ExprScan

variable {dialect : Dialect} {first c : Char} {text before : List Char} {start : Nat}

namespace Cut

def mapText (f : List Char → List Char) (cut : Cut) : Cut := ⟨cut.label, f cut.more, f cut.rest⟩

/-- How a cut comes out with carriage returns in the text. -/
inductive Returned (cut : Cut) : Cut → Prop where
  | same : Returned cut (cut.mapText withReturns)
  | joined {rest : List Char} : cut.label = .token .comment → cut.rest = '\n' :: rest →
      Returned cut ⟨cut.label, withReturns cut.more ++ ['\r'], '\n' :: withReturns rest⟩

private theorem number_withReturns (text : List Char) :
    number (withReturns text) = (number text).mapText withReturns := by
  have hd : Char.isDigit '\n' = false ∧ Char.isDigit '\r' = false := by decide
  have htake := takeWhile_withReturns hd.1 hd.2
  have hdrop := dropWhile_withReturns hd.1 hd.2
  have hplain (text : List Char) := withReturns_takeWhile hd.1 text
  rw [number, number, htake, hdrop]
  cases hrest : text.dropWhile Char.isDigit with
  | nil => simp [mapText, hplain]
  | cons c rest =>
    by_cases hn : c = '\n'
    · subst hn
      simp [mapText, hplain]
    by_cases hp : c = '.'
    · subst hp
      simp [mapText, withReturns_cons_of_ne, htake, hdrop, hplain]
    · simp [mapText, withReturns_cons_of_ne hn, hp, hplain]

private theorem word_withReturns (first : Char) (text : List Char) :
    word dialect first (withReturns text) = (word dialect first text).mapText withReturns := by
  have hw : isWordPart '\n' = false ∧ isWordPart '\r' = false := by decide
  simp only [word, mapText, takeWhile_withReturns hw.1 hw.2, dropWhile_withReturns hw.1 hw.2,
    withReturns_takeWhile hw.1]

private theorem closeString?_withReturns (text : List Char) : closeString? (withReturns text) =
    (closeString? text).map (Prod.map withReturns withReturns) := by
  fun_induction closeString? text with
  | case1 => rfl
  | case2 text => rfl
  | case3 c text ih =>
    rw [withReturns_cons_of_ne (by decide)]
    by_cases hn : c = '\n'
    · subst hn
      rw [withReturns_newline_cons, closeString?, closeString?.eq_4 _ _ (by decide) (by simp), ih]
      cases closeString? text <;> rfl
    · rw [withReturns_cons_of_ne hn, closeString?, ih]
      cases closeString? text <;> simp [withReturns_cons_of_ne, hn]
  | case4 c text hq hb ih =>
    by_cases hn : c = '\n'
    · subst hn
      rw [withReturns_newline_cons, closeString?.eq_4 _ _ (by decide) (by simp),
        closeString?.eq_4 _ _ (by decide) (by simp), ih]
      cases closeString? text <;> rfl
    · have hend : ∀ d rest, c = '\\' → withReturns text = d :: rest → False := by
        intro d rest hc he
        cases text with
        | nil => cases he
        | cons e text => exact hb e text hc rfl
      rw [withReturns_cons_of_ne hn, closeString?.eq_4 _ _ hq hend, ih]
      cases closeString? text <;> simp [withReturns_cons_of_ne, hn]

private theorem closeComment?_withReturns (text : List Char) : closeComment? (withReturns text) =
    (closeComment? text).map (Prod.map withReturns withReturns) := by
  fun_induction closeComment? text with
  | case1 => rfl
  | case2 text => rfl
  | case3 c text hother ih =>
    by_cases hn : c = '\n'
    · subst hn
      rw [withReturns_newline_cons, closeComment?.eq_3 _ _ (by simp),
        closeComment?.eq_3 _ _ (by simp), ih]
      cases closeComment? text <;> rfl
    · have hopen : ∀ rest, c = '*' → withReturns text = '/' :: rest → False := by
        intro rest hc he
        cases text with
        | nil => cases he
        | cons d text =>
          by_cases hd : d = '\n'
          · subst hd
            cases he
          · rw [withReturns_cons_of_ne hd] at he
            exact hother text hc (by rw [(List.cons.inj he).1])
      rw [withReturns_cons_of_ne hn, closeComment?.eq_3 _ _ hopen, ih]
      cases closeComment? text <;> simp [withReturns_cons_of_ne, hn]

private theorem string_withReturns (text : List Char) :
    string (withReturns text) = (string text).mapText withReturns := by
  rw [string, string, closeString?_withReturns]
  cases closeString? text <;> rfl

private theorem blockComment_withReturns (text : List Char) :
    blockComment (withReturns text) = (blockComment text).mapText withReturns := by
  rw [blockComment, blockComment, closeComment?_withReturns]
  cases closeComment? text <;> rfl

private theorem operator_withReturns (first : Char) (text : List Char) :
    operator first (withReturns text) = (operator first text).mapText withReturns := by
  have hpair (c : Char) (hc : c = '\n' ∨ c = '\r') : isOperatorPair first c = false := by
    have hb : isBlank c := by rcases hc with rfl | rfl <;> decide
    simpa using not_isOperatorPair_of_isBlank (o := first) hb
  cases text with
  | nil => rfl
  | cons c text =>
    by_cases hn : c = '\n'
    · subst hn
      simp [operator, singleOperator, mapText, hpair]
    · rw [withReturns_cons_of_ne hn, operator, operator]
      split
      · simp [mapText, withReturns_cons_of_ne hn]
      · simp [singleOperator, mapText, withReturns_cons_of_ne hn]

private theorem lineComment_append {body : List Char} (h : '\n' ∉ body) (after : List Char) :
    lineComment (body ++ after) = ⟨.token .comment, '/' :: body ++ after.takeWhile (· ≠ '\n'),
      after.dropWhile (· ≠ '\n')⟩ :=
  slash_append_of_line h after

private theorem returned_lineComment (text : List Char) :
    Returned (lineComment text) (lineComment (withReturns text)) := by
  rcases eq_firstLine_append_or text with h | ⟨line, rest, rfl, h⟩
  · have hmore : '\n' ∉ '/' :: text := by simp [h]
    have hcut := lineComment_append h []
    rw [List.append_nil] at hcut
    have hsame : lineComment text = (lineComment text).mapText withReturns := by
      rw [hcut]
      simp [mapText, withReturns_of_not_mem hmore]
    rw [withReturns_of_not_mem h]
    conv => rhs; rw [hsame]
    exact .same
  · have hmore : '\n' ∉ '/' :: line := by simp [h]
    have hline : '\n' ∉ line ++ ['\r'] := by simp [h]
    have hreturned : lineComment (line ++ '\r' :: '\n' :: withReturns rest) =
        ⟨.token .comment, withReturns ('/' :: line) ++ ['\r'], '\n' :: withReturns rest⟩ := by
      rw [withReturns_of_not_mem hmore]
      simpa using lineComment_append hline ('\n' :: withReturns rest)
    have hcut : lineComment (line ++ '\n' :: rest) =
        ⟨.token .comment, '/' :: line, '\n' :: rest⟩ := by
      simpa using lineComment_append h ('\n' :: rest)
    rw [withReturns_append, withReturns_newline_cons, withReturns_of_not_mem h, hcut, hreturned]
    exact .joined rfl rfl

private theorem returned_slash (text : List Char) :
    Returned (slash text) (slash (withReturns text)) := by
  cases text with
  | nil => exact .same
  | cons c text =>
    by_cases hl : c = '/'
    · subst hl
      exact returned_lineComment text
    by_cases hb : c = '*'
    · subst hb
      change Returned (blockComment text) (blockComment (withReturns text))
      rw [blockComment_withReturns]
      exact .same
    have hoperator := operator_withReturns '/' (c :: text)
    rw [slash_cons_of_ne hl hb]
    by_cases hn : c = '\n'
    · subst hn
      rw [withReturns_newline_cons] at hoperator ⊢
      rw [slash_cons_of_ne (by decide) (by decide), hoperator]
      exact .same
    · rw [withReturns_cons_of_ne hn] at hoperator ⊢
      rw [slash_cons_of_ne hl hb, hoperator]
      exact .same

private theorem returned_of (dialect : Dialect) (first : Char) (text : List Char) :
    Returned (Cut.of dialect first text) (Cut.of dialect first (withReturns text)) := by
  unfold Cut.of
  split
  · rw [number_withReturns]
    exact .same
  split
  · rw [word_withReturns]
    exact .same
  split
  · rw [string_withReturns]
    exact .same
  split
  · exact returned_slash text
  split
  · rw [operator_withReturns]
    exact .same
  · exact .same

end Cut

namespace Piece

def isMarked (piece : Piece) : Bool := piece.label ≠ .blank

/-- A piece of a text, and the piece that takes its place when the text has carriage returns. -/
structure Returned (source : List Char) (piece other : Piece) : Prop where
  label : other.label = piece.label
  text : other.text = withReturns piece.text ∨
    piece.label = .token .comment ∧ other.text = withReturns piece.text ++ ['\r']
  place : ∃ before after, source = before ++ (piece.text ++ after) ∧
    piece.span = ⟨byteSize before, byteSize before + byteSize piece.text⟩ ∧
    other.span = ⟨byteSize (withReturns before),
      byteSize (withReturns before) + byteSize other.text⟩

private theorem filter_isMarked_place_of_isBlank (start : Nat) (text : List Char) (h : isBlank c) :
    (place start (segments dialect (c :: text))).filter isMarked =
      (place (start + c.utf8Size) (segments dialect text)).filter isMarked := by
  rw [segments_cons_of_isBlank h, place, byteSize_cons, byteSize_nil]
  rfl

end Piece

namespace Cut.Returned

variable {cut other : Cut}

private theorem label_eq (h : cut.Returned other) : other.label = cut.label := by
  cases h <;> rfl

private theorem text_eq (h : cut.Returned other) (hn : first ≠ '\n') :
    first :: other.more = withReturns (first :: cut.more) ∨ cut.label = .token .comment ∧
      first :: other.more = withReturns (first :: cut.more) ++ ['\r'] := by
  rw [withReturns_cons_of_ne hn]
  cases h with
  | same => exact .inl rfl
  | joined hl _ => exact .inr ⟨hl, rfl⟩

/-- What is left behind the two cuts differs by a blank at most. -/
private theorem filter_place_eq (h : cut.Returned other) (dialect : Dialect) (first : Char)
    (start : Nat) :
    (Piece.place (start + byteSize (first :: other.more)) (segments dialect other.rest)).filter
        Piece.isMarked =
      (Piece.place (start + byteSize (first :: withReturns cut.more))
        (segments dialect (withReturns cut.rest))).filter Piece.isMarked := by
  cases h with
  | same => rfl
  | joined _ hr =>
    have hreturn : isBlank '\r' := by decide
    rw [hr, withReturns_newline_cons, Piece.filter_isMarked_place_of_isBlank _ _ hreturn,
      ← List.cons_append, byteSize_append, Nat.add_assoc]
    rfl

end Cut.Returned

/-- Apart from blanks the pieces of a text with carriage returns are those of the text, one by one. -/
theorem forall₂_returned (dialect : Dialect) (before text : List Char) :
    List.Forall₂ (Piece.Returned (before ++ text))
      ((Piece.place (byteSize before) (segments dialect text)).filter Piece.isMarked)
      ((Piece.place (byteSize (withReturns before))
        (segments dialect (withReturns text))).filter Piece.isMarked) := by
  fun_induction segments dialect text generalizing before with
  | case1 => simp [segments, Piece.place]
  | case2 first text cut ih =>
    have hreturned : cut.Returned _ := Cut.returned_of dialect first text
    have hmore : first :: text = first :: cut.more ++ cut.rest :=
      congrArg (first :: ·) (Cut.of_more_append_rest dialect first text).symm
    have hlater := ih (before ++ first :: cut.more)
    rw [List.append_assoc, ← hmore, byteSize_append, withReturns_append, byteSize_append] at hlater
    by_cases hn : first = '\n'
    · -- a newline is two blanks in the other text, and the hypothesis stands behind both
      subst hn
      have hnewline : isBlank '\n' := by decide
      have hcut : cut = ⟨.blank, [], text⟩ := Cut.of_blank hnewline
      rw [withReturns_newline_cons, Piece.filter_isMarked_place_of_isBlank _ _ (by decide),
        Piece.filter_isMarked_place_of_isBlank _ _ hnewline]
      rw [hcut] at hlater ⊢
      exact hlater
    · -- behind a line comment the other text has lost a carriage return, which would be a blank
      rw [withReturns_cons_of_ne hn, ← hreturned.filter_place_eq] at hlater
      rw [withReturns_cons_of_ne hn, Piece.place_segments_cons]
      generalize Cut.of dialect first (withReturns text) = other at hreturned hlater
      have hlabel := hreturned.label_eq
      by_cases hb : cut.label = .blank
      · rw [List.filter_cons_of_neg (by simp [Cut.piece, Piece.isMarked, hlabel, hb])]
        rw [Piece.place, List.filter_cons_of_neg (by simp [Piece.isMarked, hb])]
        exact hlater
      · rw [List.filter_cons_of_pos (by simp [Cut.piece, Piece.isMarked, hlabel, hb])]
        rw [Piece.place, List.filter_cons_of_pos (by simp [Piece.isMarked, hb])]
        refine .cons ⟨hlabel, hreturned.text_eq hn, before, cut.rest, ?_, rfl, rfl⟩ hlater
        rw [hmore]

end ExprScan
