import ExprScan.Program.Run
import ExprScan.Proofs.Expression.Placement
import ExprScan.Proofs.Scan.Tiling
import ExprScan.Proofs.Text.Lines

/-! What a run tells about a text. No parenthesis is ever scanned, so the first token out of place
decides, and the run tells the verdict by its exit code and by the last lines of what it prints. -/
namespace ExprScan

/-- The verdict on the tokens of a text, without comments, that first break at an index. -/
structure Verdict.StopsAt (tokens : List Token) (index : Nat) (verdict : Verdict) : Prop where
  accepted : verdict = .accepted ↔ Odd index
  ended : Even index → index = tokens.length → verdict = .rejected ⟨.term, .unexpectedEnd⟩
  misplaced : ∀ token, Even index → tokens[index]? = some token →
    verdict = .rejected ⟨.term, .unexpectedToken token⟩ ∧
      (token.kind = .keyword ∨ token.kind = .operator) ∧ token.lexeme ≠ "(" ∧ token.lexeme ≠ ")"

/-- An outcome tells a verdict by its code, by the last line of its output where the verdict is good,
and by the last line of its error output where it is not. -/
structure Outcome.Tells (outcome : Outcome) (verdict : Verdict) : Prop where
  code : outcome.code = if verdict = .accepted then 0 else 1
  output : EndsWithLine outcome.stdout "Parsing successful!" ↔ verdict = .accepted
  error : ∀ failure, verdict = .rejected failure → EndsWithLine outcome.stderr failure.display

variable {dialect : Dialect} {source : String} {index : Nat} {failure : Failure}

def visibleTokens (dialect : Dialect) (source : String) : List Token :=
  (Scan.ofString dialect source).tokens.filter (!·.isComment)

theorem Kind.keyword_or_operator {kind : Kind} (hc : kind ≠ .comment) (ho : ¬ kind.isOperand) :
    kind = .keyword ∨ kind = .operator := by
  cases kind <;> simp_all [Kind.isOperand]

theorem lexeme_of_mem_visibleTokens {token : Token} (h : token ∈ visibleTokens dialect source) :
    Lexeme dialect token.kind token.lexeme.toList ∧ token.kind ≠ .comment := by
  obtain ⟨hm, hc⟩ := List.mem_filter.mp h
  exact ⟨lexeme_of_mem_tokens hm, by simpa [Token.isComment] using hc⟩

theorem not_open_of_mem_visibleTokens {token : Token} (h : token ∈ visibleTokens dialect source) :
    ¬ token.is .operator "(" := by
  intro hp
  obtain rfl := Token.is_iff.mp hp
  obtain ⟨hlexeme, -⟩ := lexeme_of_mem_visibleTokens h
  exact not_mem_of_lexeme hlexeme (.inr rfl) (c := '(') (by decide) (by decide)

private theorem stopsAt_of_isLeast
    (h : IsLeast {index | BreakAt (visibleTokens dialect source) index} index) :
    Verdict.StopsAt (visibleTokens dialect source) index
      (recognize (Scan.ofString dialect source).tokens).verdict := by
  have hrun := Automaton.run_start_of_isLeast h fun _ => not_open_of_mem_visibleTokens
  rw [recognize_verdict, ← visibleTokens, hrun, Automaton.leave_behind]
  constructor
  case accepted => simp [← Nat.not_even_iff_odd]
  case ended =>
    rintro he rfl
    simp [he, Reason.at_eq_unexpectedEnd_iff.mpr (Nat.le_refl _)]
  case misplaced =>
    intro token he ht
    obtain ⟨hlexeme, hcomment⟩ := lexeme_of_mem_visibleTokens (List.mem_of_getElem? ht)
    have hs := BreakAt.not_standsAt h.1 ht
    rw [Kind.standsAt, if_pos (Nat.even_iff.mp he)] at hs
    have hkind := Kind.keyword_or_operator hcomment hs
    have hplain (c : Char) (hc : ¬ isWordPart c ∧ ¬ isSingleOperator c ∧ c ≠ '!') :
        token.lexeme ≠ String.singleton c := by
      intro hp
      rw [hp] at hlexeme
      exact not_mem_of_lexeme hlexeme hkind hc (by simp)
    have hat := Reason.at_eq_unexpectedToken_iff.mpr ht
    exact ⟨by simp [he, hat], hkind, hplain '(' (by decide), hplain ')' (by decide)⟩

private theorem not_mem_display_of_rejected
    (h : (recognize (Scan.ofString dialect source).tokens).verdict = .rejected failure) :
    '\n' ∉ failure.display.toList := by
  obtain ⟨index, hleast⟩ := exists_isLeast_breakAt (visibleTokens dialect source)
  have hstops := stopsAt_of_isLeast hleast
  have heven : Even index := by
    rw [← Nat.not_odd_iff_even, ← hstops.accepted, h]
    simp
  cases ht : (visibleTokens dialect source)[index]? with
  | none =>
    have hle : index ≤ (visibleTokens dialect source).length := hleast.2 (.inl rfl)
    have hend := hstops.ended heven (Nat.le_antisymm hle (List.getElem?_eq_none_iff.mp ht))
    rw [h] at hend
    obtain rfl := Verdict.rejected.inj hend
    decide
  | some token =>
    obtain ⟨hverdict, hkind, -⟩ := hstops.misplaced token heven ht
    rw [h] at hverdict
    obtain rfl := Verdict.rejected.inj hverdict
    obtain ⟨hlexeme, -⟩ := lexeme_of_mem_visibleTokens (List.mem_of_getElem? ht)
    have hplain := not_mem_of_lexeme hlexeme hkind (c := '\n') (by decide)
    have hjoin (front back : String) (hf : '\n' ∉ front.toList) (hb : '\n' ∉ back.toList) :
        '\n' ∉ (front ++ token.lexeme ++ back).toList := by
      simp [hf, hplain, hb]
    exact hjoin _ _ (by decide) (by decide)

namespace Outcome

theorem toList_unlines (list : List String) :
    (unlines list).toList = list.flatMap fun line => line.toList ++ ['\n'] := by
  rw [unlines, String.toList_join, List.flatMap_map]
  simp

private theorem endsWithLine_unlines (front : List String) {line : String}
    (h : '\n' ∉ line.toList) : EndsWithLine (unlines (front ++ [line])) line := by
  rw [EndsWithLine, ← lines_of_not_mem h]
  rw [toList_unlines, List.flatMap_append, List.flatMap_singleton]
  rcases List.eq_nil_or_concat' front with rfl | ⟨earlier, last, rfl⟩
  · exact List.suffix_rfl
  · obtain ⟨between, hlines, -⟩ := lines_append_newline
      (earlier.flatMap (fun line => line.toList ++ ['\n']) ++ last.toList) (line.toList ++ ['\n'])
    refine ⟨between, ?_⟩
    simpa using hlines.symm

/-- Tokens are printed with a brace at the end, so another line can only follow them. -/
private theorem not_endsWithLine_displays (tokens : List Token) {line : String} {c : Char}
    (h : line.toList.getLast? = some c) (hc : c ≠ '\x7d') :
    ¬ EndsWithLine (unlines (tokens.map Token.display)) line := by
  intro hends
  obtain ⟨front, hs⟩ := hends.suffix
  rw [toList_unlines] at hs
  rcases List.eq_nil_or_concat' tokens with rfl | ⟨earlier, last, rfl⟩
  · simp at hs
  · have hbrace (front : String) : (front ++ "'\x7d").toList.getLast? = some '\x7d' := by simp
    have hdisplay : last.display.toList.getLast? = some '\x7d' := hbrace _
    rw [List.map_append, List.flatMap_append, List.map_singleton, List.flatMap_singleton,
      ← List.append_assoc, ← List.append_assoc] at hs
    have hlast := congrArg List.getLast? (List.append_cancel_right hs)
    rw [List.getLast?_append, List.getLast?_append, h, hdisplay] at hlast
    exact hc (Option.some.inj hlast)

end Outcome

private theorem evaluate_tells (options : Options) (source : String) :
    (options.evaluate source).Tells
      (recognize (Scan.ofString options.dialect source).tokens).verdict := by
  constructor
  case code =>
    rw [Options.evaluate]
    cases (recognize (Scan.ofString options.dialect source).tokens).verdict <;>
      simp [Verdict.code]
  case output =>
    rw [Outcome.stdout, Options.evaluate]
    cases (recognize (Scan.ofString options.dialect source).tokens).verdict with
    | accepted => simp [Verdict.success, Outcome.endsWithLine_unlines]
    | rejected failure =>
      have hends := Outcome.not_endsWithLine_displays (Scan.ofString options.dialect source).tokens
        (c := '!') (show "Parsing successful!".toList.getLast? = _ by decide) (by decide)
      simpa [Verdict.success] using hends
  case error =>
    intro failure hv
    have hkeep : options.keeps (.failure failure.display) = true := rfl
    rw [Outcome.stderr, Options.evaluate]
    simp only [hv, Verdict.failure, List.filter_append, List.filter_singleton, hkeep,
      List.flatMap_append]
    exact Outcome.endsWithLine_unlines _ (not_mem_display_of_rejected hv)

/-- The first index at which the tokens of a text break decides: the text is accepted if that index
is odd, and otherwise what is found there is told. -/
theorem evaluate_parity (options : Options) (source : String) : ∃ index,
    IsLeast {index | BreakAt (visibleTokens options.dialect source) index} index ∧
    Verdict.StopsAt (visibleTokens options.dialect source) index
      (recognize (Scan.ofString options.dialect source).tokens).verdict ∧
    (options.evaluate source).Tells
      (recognize (Scan.ofString options.dialect source).tokens).verdict ∧
    ∀ {m : Type → Type} [Monad m] [LawfulMonad m] (host : Host m),
      options.origin.read host = pure (.ok source) →
      options.run host = pure (options.evaluate source) := by
  obtain ⟨index, h⟩ := exists_isLeast_breakAt (visibleTokens options.dialect source)
  refine ⟨index, h, stopsAt_of_isLeast h, evaluate_tells options source, ?_⟩
  intro m _ _ host hread
  simp [Options.run, hread]

theorem evaluate_parity_argument :
    Options.origin { expression? := some "1 + if" } = .argument "1 + if" ∧
    Options.run (m := Id) ⟨fun _ => .error .notFound, .error .notFound⟩
      { expression? := some "1 + if" } =
        Options.evaluate { expression? := some "1 + if" } "1 + if" := by
  obtain ⟨-, -, -, -, hrun⟩ := evaluate_parity { expression? := some "1 + if" } "1 + if"
  exact ⟨rfl, hrun _ rfl⟩

end ExprScan
