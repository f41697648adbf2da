import ExprScan.Proofs.Expression.Extent
import ExprScan.Proofs.Scan.Tiling
import Mathlib.Data.String.Basic

/-! The dialects differ in one word. Where `print` is not reserved a text is cut at the same places, and
the tokens are the same but for that word, which becomes an identifier. No reading that has got past a
token is lost by that, as a keyword can stand nowhere in an expression. -/
namespace ExprScan

variable {tokens : List Token} {token : Token} {failure : Failure}

namespace Cut

private theorem of_dialect (dialect other : Dialect) (first : Char) (text : List Char) :
    of other first text = of dialect first text ∨
      of dialect first text = word dialect first text ∧
        of other first text = word other first text := by
  unfold of
  split
  · exact .inl rfl
  split
  · exact .inr ⟨rfl, rfl⟩
  · exact .inl rfl

/-- A segment ends at the same place in every dialect. -/
theorem ends_of_eq (dialect other : Dialect) (first : Char) (text : List Char) :
    (of dialect first text).more = (of other first text).more ∧
      (of dialect first text).rest = (of other first text).rest := by
  rcases of_dialect dialect other first text with he | ⟨hd, ho⟩
  · rw [he]
    exact ⟨rfl, rfl⟩
  · rw [hd, ho]
    exact ⟨rfl, rfl⟩

end Cut

private theorem not_lexeme_printWord : ¬ Lexeme ⟨false⟩ .keyword printWord.toList := by
  decide

private theorem lexeme_printWord : Lexeme ⟨true⟩ .keyword printWord.toList := by
  decide

def Token.unreserve (token : Token) : Token :=
  if token = ⟨.keyword, printWord⟩ then ⟨.identifier, printWord⟩ else token

def Segment.unreserve (segment : Segment) : Segment :=
  if segment = ⟨.token .keyword, printWord.toList⟩ then ⟨.token .identifier, printWord.toList⟩
  else segment

private theorem wordKind_of_ne {word : String} (h : word ≠ printWord) (dialect other : Dialect) :
    dialect.wordKind word = other.wordKind word := by
  simp [Dialect.wordKind, h]

namespace Segment

private theorem text_unreserve (segment : Segment) : segment.unreserve.text = segment.text := by
  rw [unreserve]
  split
  · next h => rw [h]
  · rfl

private theorem token?_unreserve (segment : Segment) :
    segment.unreserve.token? = segment.token?.map Token.unreserve := by
  obtain ⟨label, text⟩ := segment
  cases label with
  | token kind =>
    by_cases h : kind = .keyword ∧ text = printWord.toList
    · obtain ⟨rfl, rfl⟩ := h
      simp [token?, unreserve, Token.unreserve]
    · simp [token?, unreserve, Token.unreserve, String.ofList_eq, h]
  | fault fault => rfl
  | blank => rfl

private theorem diagnostic?_unreserve (segment : Segment) (span : Span) :
    Piece.diagnostic? ⟨segment.unreserve, span⟩ = Piece.diagnostic? ⟨segment, span⟩ := by
  rw [unreserve]
  split
  · next h =>
    rw [h]
    rfl
  · rfl

private theorem unreserve_of (first : Char) (text : List Char) :
    unreserve ⟨(Cut.of ⟨true⟩ first text).label, first :: (Cut.of ⟨true⟩ first text).more⟩ =
      ⟨(Cut.of ⟨false⟩ first text).label, first :: (Cut.of ⟨false⟩ first text).more⟩ := by
  rcases Cut.of_dialect ⟨true⟩ ⟨false⟩ first text with he | ⟨hd, ho⟩
  · -- a keyword `print` would be one in the other dialect as well
    rw [← he, unreserve, if_neg]
    intro hprint
    obtain ⟨hlabel, htext⟩ := Segment.mk.inj hprint
    have hl := (Cut.tail_of_label hlabel).lexeme
    rw [htext] at hl
    exact not_lexeme_printWord hl
  · rw [hd, ho, Cut.word, Cut.word]
    by_cases hw : first :: text.takeWhile isWordPart = printWord.toList
    · have hset : Dialect.wordKind ⟨true⟩ printWord = .keyword := by decide
      have hcleared : Dialect.wordKind ⟨false⟩ printWord = .identifier := by decide
      rw [hw, String.ofList_toList, hset, hcleared]
      exact if_pos rfl
    · have hne : String.ofList (first :: text.takeWhile isWordPart) ≠ printWord :=
        mt String.ofList_eq.mp hw
      rw [wordKind_of_ne hne ⟨false⟩ ⟨true⟩, unreserve, if_neg]
      exact fun he => hw (Segment.mk.inj he).2

end Segment

private theorem segments_unreserve (text : List Char) :
    segments ⟨false⟩ text = (segments ⟨true⟩ text).map Segment.unreserve := by
  fun_induction segments ⟨true⟩ text with
  | case1 => simp [segments]
  | case2 first text cut ih =>
    rw [segments, List.map_cons, Segment.unreserve_of, ← ih,
      (Cut.ends_of_eq ⟨true⟩ ⟨false⟩ first text).2]

private theorem Piece.filterMap_diagnostic?_place_unreserve (start : Nat)
    (segments : List Segment) :
    (place start (segments.map Segment.unreserve)).filterMap diagnostic? =
      (place start segments).filterMap diagnostic? := by
  induction segments generalizing start with
  | nil => rfl
  | cons segment later ih =>
    rw [List.map_cons, place, place, filterMap_cons_toList, filterMap_cons_toList,
      segment.text_unreserve, ih, segment.diagnostic?_unreserve]

namespace Scan

private theorem tokens_unreserve (source : String) : (ofString ⟨false⟩ source).tokens =
    (ofString ⟨true⟩ source).tokens.map Token.unreserve := by
  rw [tokens_ofString, tokens_ofString, segments_unreserve, List.filterMap_map,
    List.map_filterMap]
  congr 1
  funext segment
  exact segment.token?_unreserve

private theorem diagnostics_unreserve (source : String) :
    (ofString ⟨false⟩ source).diagnostics = (ofString ⟨true⟩ source).diagnostics := by
  rw [diagnostics, ofString, segments_unreserve]
  exact Piece.filterMap_diagnostic?_place_unreserve 0 _

end Scan

namespace Token

private theorem lexeme_unreserve (token : Token) : token.unreserve.lexeme = token.lexeme := by
  rw [unreserve]
  split
  · next h => rw [h]
  · rfl

private theorem isComment_unreserve (token : Token) :
    token.unreserve.isComment = token.isComment := by
  rw [unreserve]
  split
  · next h =>
    rw [h]
    rfl
  · rfl

private theorem kind_unreserve_ne_operator (h : token.kind ≠ .operator) :
    token.unreserve.kind ≠ .operator := by
  rw [unreserve]
  split
  · decide
  · exact h

private theorem filter_map_unreserve (tokens : List Token) :
    (tokens.map unreserve).filter (!·.isComment) =
      (tokens.filter (!·.isComment)).map unreserve := by
  rw [List.filter_map]
  congr 2
  funext token
  rw [Function.comp_apply, isComment_unreserve]

end Token

namespace Automaton

variable {automaton next : Automaton}

private theorem unreserve_of_step? (h : automaton.step? token = some next) :
    token.unreserve = token := by
  rw [Token.unreserve, if_neg]
  rintro rfl
  rw [step?] at h
  split at h
  · cases h
  · cases h

private theorem foldlM_unreserve (h : tokens.foldlM step? automaton = some next) :
    tokens.map Token.unreserve = tokens := by
  induction tokens generalizing automaton with
  | nil => rfl
  | cons token later ih =>
    rw [List.foldlM_cons] at h
    obtain ⟨between, hstep, hrest⟩ := Option.bind_eq_some_iff.mp h
    rw [List.map_cons, unreserve_of_step? hstep, ih hrest]

private theorem pass?_unreserve (h : automaton.pass? tokens = some next) :
    automaton.pass? (tokens.map Token.unreserve) = some next := by
  rw [pass?, Token.filter_map_unreserve, foldlM_unreserve h]
  exact h

private theorem eq_of_leave_accepted {reason : Reason} (h : automaton.leave reason = .accepted) :
    automaton = ⟨.operator, false⟩ := by
  obtain ⟨expected, opened⟩ := automaton
  cases expected with
  | term => cases h
  | operator =>
    cases opened with
    | true => cases h
    | false => rfl

private theorem run_unreserve (h : automaton.run tokens = .accepted) :
    automaton.run (tokens.map Token.unreserve) = .accepted := by
  induction tokens generalizing automaton with
  | nil => exact h
  | cons token later ih =>
    rw [List.map_cons]
    cases hs : automaton.step? token with
    | some next =>
      rw [run_cons_of_some hs] at h
      rw [unreserve_of_step? hs, run_cons_of_some hs]
      exact ih h
    | none =>
      rw [run_cons_of_none hs] at h
      -- the text ends in front of this token, which is no operator under either of its kinds
      cases eq_of_leave_accepted h
      have hk : token.kind ≠ .operator := by
        intro hk
        simp [step?, hk] at hs
      have hstop : (Automaton.mk .operator false).step? token.unreserve = none := by
        simp [step?, Token.kind_unreserve_ne_operator hk]
      rw [run_cons_of_none hstop]
      rfl

end Automaton

private theorem recognize_unreserve (h : (recognize tokens).verdict = .accepted) :
    (recognize (tokens.map Token.unreserve)).verdict = .accepted := by
  rw [recognize_verdict] at h ⊢
  rw [Token.filter_map_unreserve]
  exact Automaton.run_unreserve h

/-- What is rejected with the identifier is rejected with the keyword, and not later. -/
private theorem rejectedAt_unreserve
    (h : (recognize (tokens.map Token.unreserve)).verdict = .rejected failure) :
    ∃ index earlierFailure earlier, RejectedAt (tokens.map Token.unreserve) failure index ∧
      RejectedAt tokens earlierFailure earlier ∧ earlier ≤ index := by
  obtain ⟨index, automaton, hs, hat⟩ := exists_rejectedAt h
  cases hv : (recognize tokens).verdict with
  | accepted =>
    rw [recognize_unreserve hv] at h
    cases h
  | rejected earlierFailure =>
    obtain ⟨earlier, next, hearlier, hrejected⟩ := exists_rejectedAt hv
    have hle : earlier ≤ (tokens.map Token.unreserve).length := by
      rw [List.length_map]
      exact hearlier.le
    have hpassed : Automaton.start.pass? ((tokens.map Token.unreserve).take earlier) =
        some next := by
      rw [← List.map_take]
      exact Automaton.pass?_unreserve hearlier.passed
    exact ⟨index, earlierFailure, earlier, hat, hrejected, hs.le_of_pass? hle hpassed⟩

/-- Where `print` is not reserved the same texts are tokens and the same is reported. The kinds differ
at the word `print` and nowhere else, no expression is lost, and what is rejected is rejected at the
same token or an earlier one where the word is reserved. -/
theorem scan_printWord (source : String) :
    (Scan.ofString ⟨false⟩ source).tokens.map Token.lexeme =
      (Scan.ofString ⟨true⟩ source).tokens.map Token.lexeme ∧
    (Scan.ofString ⟨false⟩ source).diagnostics = (Scan.ofString ⟨true⟩ source).diagnostics ∧
    (∀ (index : Nat) (reserved free : Token),
      (Scan.ofString ⟨true⟩ source).tokens[index]? = some reserved →
      (Scan.ofString ⟨false⟩ source).tokens[index]? = some free →
      (reserved.kind ≠ free.kind ↔ reserved.lexeme = printWord) ∧
      (reserved.lexeme = printWord → reserved.kind = .keyword ∧ free.kind = .identifier)) ∧
    ((recognize (Scan.ofString ⟨true⟩ source).tokens).verdict = .accepted →
      (recognize (Scan.ofString ⟨false⟩ source).tokens).verdict = .accepted) ∧
    (∀ failure, (recognize (Scan.ofString ⟨false⟩ source).tokens).verdict = .rejected failure →
      ∃ index earlierFailure earlier,
        RejectedAt (Scan.ofString ⟨false⟩ source).tokens failure index ∧
        RejectedAt (Scan.ofString ⟨true⟩ source).tokens earlierFailure earlier ∧
        earlier ≤ index) := by
  rw [Scan.diagnostics_unreserve, Scan.tokens_unreserve]
  refine ⟨?_, rfl, ?_, recognize_unreserve, fun _ => rejectedAt_unreserve⟩
  · rw [List.map_map]
    congr 1
    funext token
    exact token.lexeme_unreserve
  · intro index reserved free hr hf
    rw [List.getElem?_map, hr] at hf
    cases hf
    have hprint (h : reserved.lexeme = printWord) : reserved = ⟨.keyword, printWord⟩ := by
      have hl := lexeme_of_mem_tokens (List.mem_of_getElem? hr)
      rw [h] at hl
      obtain ⟨kind, lexeme⟩ := reserved
      cases kind_eq_of_lexeme hl lexeme_printWord
      cases h
      rfl
    refine ⟨⟨?_, ?_⟩, ?_⟩
    · intro hne
      rw [Token.unreserve] at hne
      split at hne
      · next he => rw [he]
      · exact (hne rfl).elim
    · intro h
      rw [hprint h]
      decide
    · intro h
      rw [hprint h]
      decide

theorem scan_printWord_operand :
    (∃ reserved free : Token, (Scan.ofString ⟨true⟩ "print + return").tokens[0]? = some reserved ∧
      (Scan.ofString ⟨false⟩ "print + return").tokens[0]? = some free ∧
      reserved.kind ≠ free.kind) ∧
    (recognize (Scan.ofString ⟨false⟩ "\"print\" print").tokens).verdict = .accepted ∧
    ∃ index earlierFailure earlier,
      RejectedAt (Scan.ofString ⟨false⟩ "print + return").tokens
        ⟨.term, .unexpectedToken ⟨.keyword, "return"⟩⟩ index ∧
      RejectedAt (Scan.ofString ⟨true⟩ "print + return").tokens earlierFailure earlier ∧
      earlier ≤ index := by
  have hset : (Scan.ofString ⟨true⟩ "print + return").tokens =
      [⟨.keyword, "print"⟩, ⟨.operator, "+"⟩, ⟨.keyword, "return"⟩] := by decide +kernel
  have hcleared : (Scan.ofString ⟨false⟩ "print + return").tokens =
      [⟨.identifier, "print"⟩, ⟨.operator, "+"⟩, ⟨.keyword, "return"⟩] := by decide +kernel
  have hquoted : (Scan.ofString ⟨true⟩ "\"print\" print").tokens =
      [⟨.string, "\"print\""⟩, ⟨.keyword, "print"⟩] := by decide +kernel
  obtain ⟨-, -, hkinds, -, hrejected⟩ := scan_printWord "print + return"
  obtain ⟨-, -, -, haccepted, -⟩ := scan_printWord "\"print\" print"
  refine ⟨?_, ?_, ?_⟩
  · have hreserved : (Scan.ofString ⟨true⟩ "print + return").tokens[0]? =
        some ⟨.keyword, "print"⟩ := by rw [hset]; rfl
    have hfree : (Scan.ofString ⟨false⟩ "print + return").tokens[0]? =
        some ⟨.identifier, "print"⟩ := by rw [hcleared]; rfl
    exact ⟨_, _, hreserved, hfree, (hkinds 0 _ _ hreserved hfree).1.mpr rfl⟩
  · exact haccepted (by rw [hquoted]; exact (recognize_verdict _).trans (by decide))
  · exact hrejected _ (by rw [hcleared]; exact (recognize_verdict _).trans (by decide))

end ExprScan
