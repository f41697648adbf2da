import ExprScan.Proofs.Program.Parity
import ExprScan.Proofs.Scan.Dialect

/-! What a run prints can be read back. Lexemes are printed without escapes and may contain all that
stands between two of them, but only a text that is scanned is printed: of two lexemes at the start of
one text that goes on with the same mark, neither is part of the other. -/
namespace ExprScan

variable {dialect other : Dialect} {kind : Kind} {first : Char} {more text rest later : List Char}

def closing (rest : List Char) : List Char := '\'' :: '\x7d' :: '\n' :: rest

private theorem LexemeTail.endsBefore_quote_or (h : LexemeTail dialect first kind more) :
    endsBefore kind (first :: more) (some '\'') = true ∨
      kind = .comment ∧ first = '/' ∧ ∃ body, more = '/' :: body ∧ '\n' ∉ body := by
  cases h with
  | int _ _ => exact .inl rfl
  | float _ _ _ => exact .inl rfl
  | word _ _ =>
    left
    rw [endsBefore_wordKind]
    rfl
  | string _ => exact .inl rfl
  | lineComment hn => exact .inr ⟨rfl, rfl, _, rfl, hn⟩
  | blockComment _ => exact .inl rfl
  | single _ =>
    left
    have hall : ∀ pair ∈ operatorPairs, pair.2 ≠ '\'' := by decide
    have hplain : ¬ isOperatorPair first '\'' := by
      intro hp
      exact hall _ (List.contains_iff_mem.mp hp) rfl
    simp [endsBefore, hplain]
  | pair _ _ => exact .inl rfl

/-- A text that starts with a closed lexeme is cut right behind it, or behind the closing mark where
the text starts a line comment. -/
private theorem LexemeTail.more_of_closing (h : LexemeTail dialect first kind more)
    (rest : List Char) :
    (Cut.of dialect first (more ++ closing rest)).more = more ++
      if kind = .comment ∧ (more ++ closing rest).head? = some '/' then ['\'', '\x7d'] else [] := by
  by_cases hline : kind = .comment ∧ (more ++ closing rest).head? = some '/'
  · rw [if_pos hline]
    obtain ⟨rfl, hhead⟩ := hline
    rcases h.lexeme with ⟨body, he, hn⟩ | ⟨body, he, -⟩
    · obtain ⟨rfl, rfl⟩ := List.cons.inj he
      rw [Cut.of_slash, Cut.slash_append_of_line hn]
      rfl
    · obtain ⟨rfl, rfl⟩ := List.cons.inj he
      cases hhead
  · have he : endsBefore kind (first :: more) (some '\'') = true := by
      refine h.endsBefore_quote_or.resolve_right ?_
      rintro ⟨rfl, rfl, body, rfl, -⟩
      exact hline ⟨rfl, rfl⟩
    rw [(h.of_eq_iff (closing rest)).mpr he, if_neg hline, List.append_nil]

/-- Of two lexemes of a kind that are closed in one text neither is longer. -/
private theorem lexeme_append_closing_inj {lexeme another : List Char}
    (h : Lexeme dialect kind lexeme) (ho : Lexeme other kind another)
    (he : lexeme ++ closing rest = another ++ closing later) : lexeme = another := by
  cases lexeme with
  | nil => exact (not_lexeme_nil h).elim
  | cons first more =>
    cases another with
    | nil => exact (not_lexeme_nil ho).elim
    | cons second body =>
      rw [List.cons_append, List.cons_append] at he
      obtain ⟨rfl, htext⟩ := List.cons.inj he
      -- both lexemes are read off the same text, though each in its own dialect
      have hmore := (lexemeTail_of_lexeme h).more_of_closing rest
      have hbody := (lexemeTail_of_lexeme ho).more_of_closing later
      rw [htext, (Cut.ends_of_eq dialect other _ _).1, hbody] at hmore
      rw [List.append_cancel_right hmore]

private theorem Kind.eq_of_append_comma {another : Kind} {text line : List Char}
    (h : kind.name.toList ++ ',' :: text = another.name.toList ++ ',' :: line) :
    kind = another := by
  have hplain (kind : Kind) : ',' ∉ kind.name.toList := by cases kind <;> decide
  have hname (kind : Kind) (text : List Char) :
      (kind.name.toList ++ ',' :: text).takeWhile (· ≠ ',') = kind.name.toList := by
    rw [List.takeWhile_append_of_pos (forall_ne_of_not_mem (hplain kind))]
    simp
  have htake := congrArg (List.takeWhile (· ≠ ',')) h
  rw [hname, hname] at htake
  exact Kind.name_injective (String.toList_injective htake)

namespace Token

private theorem toList_display (token : Token) (rest : List Char) :
    token.display.toList ++ '\n' :: rest =
      "Token\x7btype=".toList ++ (token.kind.name.toList ++ (", value='".toList ++
        (token.lexeme.toList ++ closing rest))) := by
  -- over variables, as the texts in between would be opened letter by letter
  have hparts (front name middle lexeme back : String) (rest : List Char) :
      (front ++ name ++ middle ++ lexeme ++ back).toList ++ rest = front.toList ++ (name.toList ++
        (middle.toList ++ (lexeme.toList ++ (back.toList ++ rest)))) := by
    simp
  exact hparts _ _ _ _ "'\x7d" _

private theorem display_append_inj {token another : Token}
    (h : Lexeme dialect token.kind token.lexeme.toList)
    (ho : Lexeme other another.kind another.lexeme.toList)
    (he : token.display.toList ++ '\n' :: rest = another.display.toList ++ '\n' :: later) :
    token = another ∧ rest = later := by
  obtain ⟨kind, lexeme⟩ := token
  obtain ⟨same, text⟩ := another
  rw [toList_display, toList_display] at he
  have hnames := List.append_cancel_left he
  obtain rfl : kind = same := Kind.eq_of_append_comma hnames
  have hlexemes := List.append_cancel_left (List.append_cancel_left hnames)
  have hlexeme := lexeme_append_closing_inj h ho hlexemes
  obtain rfl : lexeme = text := String.toList_injective hlexeme
  have hclosing := List.append_cancel_left hlexemes
  simp only [closing, List.cons.injEq, true_and] at hclosing
  exact ⟨rfl, hclosing⟩

/-- Lists of printed tokens are told apart, also where other text follows them that is not printed
like a token. -/
theorem displays_append_inj {tokens others : List Token}
    (h : ∀ token ∈ tokens, Lexeme dialect token.kind token.lexeme.toList)
    (ho : ∀ token ∈ others, Lexeme other token.kind token.lexeme.toList)
    (hr : rest.head? ≠ some 'T') (hl : later.head? ≠ some 'T')
    (he : (tokens.flatMap fun token => token.display.toList ++ ['\n']) ++ rest =
      (others.flatMap fun token => token.display.toList ++ ['\n']) ++ later) :
    tokens = others := by
  have hhead (token : Token) (text : List Char) :
      (token.display.toList ++ '\n' :: text).head? = some 'T' := by
    rw [toList_display]
    rfl
  induction tokens generalizing others with
  | nil =>
    cases others with
    | nil => rfl
    | cons another others =>
      simp only [List.flatMap_nil, List.nil_append, List.flatMap_cons, List.append_assoc] at he
      rw [he] at hr
      exact (hr (hhead _ _)).elim
  | cons token tokens ih =>
    cases others with
    | nil =>
      simp only [List.flatMap_nil, List.nil_append, List.flatMap_cons, List.append_assoc] at he
      rw [← he] at hl
      exact (hl (hhead _ _)).elim
    | cons another others =>
      rw [List.forall_mem_cons] at h ho
      simp only [List.flatMap_cons, List.append_assoc, List.singleton_append] at he
      obtain ⟨rfl, htail⟩ := display_append_inj h.1 ho.1 he
      rw [ih h.2 ho.2 htail]

-- tokens that come from no text can be printed like others
example : Outcome.unlines ([⟨.int, "1'\x7d\nToken\x7btype=INT, value='2"⟩].map display) =
    Outcome.unlines ([⟨.int, "1"⟩, ⟨.int, "2"⟩].map display) := by decide +kernel

end Token

private theorem Verdict.head?_success (verdict : Verdict) :
    (verdict.success.flatMap fun line => line.toList ++ ['\n']).head? ≠ some 'T' := by
  cases verdict with
  | accepted => decide
  | rejected failure => exact nofun

private theorem toList_stdout (options : Options) (source : String) :
    (options.evaluate source).stdout.toList =
      ((Scan.ofString options.dialect source).tokens.flatMap
        fun token => token.display.toList ++ ['\n']) ++
      ((recognize (Scan.ofString options.dialect source).tokens).verdict.success.flatMap
        fun line => line.toList ++ ['\n']) := by
  rw [Outcome.stdout, Outcome.toList_unlines, Options.evaluate, List.flatMap_append,
    List.flatMap_map]

/-- Runs that print the same have scanned the same tokens and come to the same verdict. -/
theorem tokens_eq_of_stdout_eq {options others : Options} {source another : String}
    (h : (options.evaluate source).stdout = (others.evaluate another).stdout) :
    (Scan.ofString options.dialect source).tokens =
      (Scan.ofString others.dialect another).tokens ∧
    (recognize (Scan.ofString options.dialect source).tokens).verdict =
      (recognize (Scan.ofString others.dialect another).tokens).verdict ∧
    (options.evaluate source).code = (others.evaluate another).code := by
  have htext := congrArg String.toList h
  rw [toList_stdout, toList_stdout] at htext
  have htokens := Token.displays_append_inj (fun _ => lexeme_of_mem_tokens)
    (fun _ => lexeme_of_mem_tokens) (Verdict.head?_success _) (Verdict.head?_success _) htext
  refine ⟨htokens, ?_, ?_⟩
  · rw [htokens]
  · rw [Options.evaluate, Options.evaluate, htokens]

theorem tokens_eq_of_stdout_eq_blank :
    (Options.evaluate {} "1 // '\x7d").stdout =
      (Options.evaluate { noPrintKeyword := true } "1// '\x7d\n$").stdout ∧
    (Scan.ofString .standard "1 // '\x7d").tokens =
      (Scan.ofString ⟨false⟩ "1// '\x7d\n$").tokens := by
  have h : (Options.evaluate {} "1 // '\x7d").stdout =
      (Options.evaluate { noPrintKeyword := true } "1// '\x7d\n$").stdout := by decide +kernel
  exact ⟨h, (tokens_eq_of_stdout_eq h).1⟩

end ExprScan
