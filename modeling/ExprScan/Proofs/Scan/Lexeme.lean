import ExprScan.Proofs.Scan.Closing
import ExprScan.Scan.Layout
import Mathlib.Data.List.Infix

/-! What becomes of a lexeme when text stands behind it: the cut keeps the whole lexeme, and takes
more only where the characters behind it belong to the same token. -/
namespace ExprScan

open Lexeme

/-- Lexemes by their first character and the rest, one constructor for each way to end. -/
inductive LexemeTail (dialect : Dialect) : Char → Kind → List Char → Prop where
  | int {first : Char} {more : List Char} : first.isDigit → Digits more →
      LexemeTail dialect first .int more
  | float {first : Char} {whole fraction : List Char} : first.isDigit → Digits whole →
      Digits fraction → LexemeTail dialect first .float (whole ++ '.' :: fraction)
  | word {first : Char} {more : List Char} : isWordStart first → (∀ c ∈ more, isWordPart c) →
      LexemeTail dialect first (dialect.wordKind (String.ofList (first :: more))) more
  | string {body : List Char} : StringTail body → LexemeTail dialect '"' .string body
  | lineComment {body : List Char} : '\n' ∉ body →
      LexemeTail dialect '/' .comment ('/' :: body)
  | blockComment {body : List Char} : ClosedOnce body →
      LexemeTail dialect '/' .comment ('*' :: body)
  | single {first : Char} : isSingleOperator first → LexemeTail dialect first .operator []
  | pair {first second : Char} : isOperatorPair first second → ¬ (first = '/' ∧ second = '/') →
      LexemeTail dialect first .operator [second]

variable {dialect : Dialect} {kind : Kind} {first second c : Char}
  {more text after whole fraction body : List Char}

private theorem wordKind_eq_keyword {word : String} (h : dialect.Reserves word) :
    dialect.wordKind word = .keyword := by
  rw [Dialect.Reserves] at h
  simp [Dialect.wordKind, isKeyword, h]

private theorem wordKind_eq_identifier {word : String} (h : ¬ dialect.Reserves word) :
    dialect.wordKind word = .identifier := by
  rw [Dialect.Reserves] at h
  simpa [Dialect.wordKind, isKeyword] using h

theorem not_lexeme_nil : ¬ Lexeme dialect kind [] := by
  cases kind <;>
    simp [Lexeme, Integer, Decimal, Word, Operator, Quoted, LineComment, BlockComment]

private theorem integer_cons_iff : Integer (first :: more) ↔ first.isDigit ∧ Digits more := by
  simp [Integer, Digits]

private theorem mem_operatorPairs_erase_iff : (first, second) ∈ operatorPairs.erase ('/', '/') ↔
    isOperatorPair first second ∧ ¬ (first = '/' ∧ second = '/') := by
  have hnodup : operatorPairs.Nodup := by decide
  rw [hnodup.mem_erase_iff, isOperatorPair, List.contains_iff_mem]
  simp [and_comm]

theorem lexemeTail_of_lexeme (h : Lexeme dialect kind (first :: more)) :
    LexemeTail dialect first kind more := by
  cases kind with
  | int =>
    obtain ⟨hd, hm⟩ := integer_cons_iff.mp h
    exact .int hd hm
  | float =>
    obtain ⟨whole, fraction, he, hw, hf⟩ := h
    cases whole with
    | nil => exact (hw.1 rfl).elim
    | cons d whole =>
      obtain ⟨rfl, rfl⟩ := List.cons.inj he
      obtain ⟨hd, hm⟩ := integer_cons_iff.mp hw
      exact .float hd hm hf
  | identifier =>
    obtain ⟨⟨_, _, he, hs, hm⟩, hr⟩ := h
    obtain ⟨rfl, rfl⟩ := List.cons.inj he
    rw [← wordKind_eq_identifier hr]
    exact .word hs hm
  | keyword =>
    obtain ⟨⟨_, _, he, hs, hm⟩, hr⟩ := h
    obtain ⟨rfl, rfl⟩ := List.cons.inj he
    rw [← wordKind_eq_keyword hr]
    exact .word hs hm
  | operator =>
    rcases h with ⟨c, hc, he⟩ | ⟨c, d, hp, he⟩
    · obtain ⟨rfl, rfl⟩ := List.cons.inj he
      exact .single (List.contains_iff_mem.mpr hc)
    · obtain ⟨rfl, rfl⟩ := List.cons.inj he
      obtain ⟨hp, hs⟩ := mem_operatorPairs_erase_iff.mp hp
      exact .pair hp hs
  | string =>
    obtain ⟨rfl, ht⟩ := quoted_cons_iff.mp h
    exact .string ht
  | comment =>
    rcases h with ⟨body, he, hn⟩ | ⟨body, he, hb⟩
    · obtain ⟨rfl, rfl⟩ := List.cons.inj he
      exact .lineComment hn
    · obtain ⟨rfl, rfl⟩ := List.cons.inj he
      exact .blockComment hb

theorem LexemeTail.lexeme (h : LexemeTail dialect first kind more) :
    Lexeme dialect kind (first :: more) := by
  cases h with
  | int hd hm => exact integer_cons_iff.mpr ⟨hd, hm⟩
  | float hd hw hf => exact ⟨_ :: _, _, rfl, integer_cons_iff.mpr ⟨hd, hw⟩, hf⟩
  | word hs hm =>
    have hw : Word (first :: more) := ⟨first, more, rfl, hs, hm⟩
    by_cases hr : dialect.Reserves (String.ofList (first :: more))
    · rw [wordKind_eq_keyword hr]
      exact ⟨hw, hr⟩
    · rw [wordKind_eq_identifier hr]
      exact ⟨hw, hr⟩
  | string ht => exact quoted_cons_iff.mpr ⟨rfl, ht⟩
  | lineComment hn => exact .inl ⟨_, rfl, hn⟩
  | blockComment hb => exact .inr ⟨_, rfl, hb⟩
  | single hs => exact .inl ⟨first, List.contains_iff_mem.mp hs, rfl⟩
  | pair hp hs => exact .inr ⟨first, _, mem_operatorPairs_erase_iff.mpr ⟨hp, hs⟩, rfl⟩

/-- What is read as an operator starts nothing else. -/
theorem plain_of_isOperatorStart (h : isOperatorStart first) :
    first.isDigit = false ∧ isWordStart first = false ∧ first ≠ '"' ∧ isBlank first = false := by
  have hplain : (singleOperators ++ otherMarks).all fun c =>
      !c.isDigit && !isWordStart c && c ≠ '"' && !isBlank c := by decide
  have hmem : first ∈ singleOperators ++ otherMarks := by
    simpa [isOperatorStart, isSingleOperator] using h
  simpa [and_assoc] using List.all_eq_true.mp hplain first hmem

namespace Cut

private theorem of_digit (h : first.isDigit) : Cut.of dialect first text = number text := by
  simp [Cut.of, h]

private theorem of_wordStart (h : isWordStart first) :
    Cut.of dialect first text = word dialect first text := by
  have hd : first.isDigit = false := by
    rw [isWordStart_iff] at h
    simp [Char.isDigit, UInt32.le_iff_toNat_le]
    omega
  simp [Cut.of, h, hd]

theorem of_quote : Cut.of dialect '"' text = string text := rfl

theorem of_slash : Cut.of dialect '/' text = slash text := rfl

private theorem of_operatorStart (h : isOperatorStart first) (hs : first ≠ '/') :
    Cut.of dialect first text = operator first text := by
  obtain ⟨hd, hw, hq, -⟩ := plain_of_isOperatorStart h
  simp [Cut.of, hd, hw, hq, hs, h]

private theorem number_append_of_digits (h : Digits more) (after : List Char) :
    number (more ++ after) = match after.dropWhile Char.isDigit with
      | '.' :: rest => ⟨.token .float,
          more ++ (after.takeWhile Char.isDigit ++ '.' :: rest.takeWhile Char.isDigit),
          rest.dropWhile Char.isDigit⟩
      | rest => ⟨.token .int, more ++ after.takeWhile Char.isDigit, rest⟩ := by
  rw [number]
  rw [List.takeWhile_append_of_pos h, List.dropWhile_append_of_pos h]
  split <;> simp [*]

private theorem number_append_of_point (hw : Digits whole) (hf : Digits fraction)
    (after : List Char) :
    number (whole ++ '.' :: fraction ++ after) =
      ⟨.token .float, whole ++ '.' :: fraction ++ after.takeWhile Char.isDigit,
        after.dropWhile Char.isDigit⟩ := by
  rw [List.append_assoc, number_append_of_digits hw, List.cons_append,
    List.dropWhile_cons_of_neg (by decide), List.takeWhile_cons_of_neg (by decide)]
  simp [List.takeWhile_append_of_pos hf, List.dropWhile_append_of_pos hf]

private theorem word_append (h : ∀ c ∈ more, isWordPart c) (after : List Char) :
    word dialect first (more ++ after) =
      ⟨.token (dialect.wordKind (String.ofList (first :: (more ++ after.takeWhile isWordPart)))),
        more ++ after.takeWhile isWordPart, after.dropWhile isWordPart⟩ := by
  rw [word, List.takeWhile_append_of_pos h, List.dropWhile_append_of_pos h]

private theorem string_append (h : StringTail body) (after : List Char) :
    string (body ++ after) = ⟨.token .string, body, after⟩ := by
  rw [string, closeString?_append h]

theorem slash_append_of_line (h : '\n' ∉ body) (after : List Char) :
    slash ('/' :: body ++ after) = ⟨.token .comment, '/' :: body ++ after.takeWhile (· ≠ '\n'),
      after.dropWhile (· ≠ '\n')⟩ := by
  have hbody : ∀ c ∈ body, decide (c ≠ '\n') = true := by
    intro c hc
    simp only [decide_eq_true_eq]
    rintro rfl
    exact h hc
  rw [List.cons_append, slash, lineComment, List.takeWhile_append_of_pos hbody,
    List.dropWhile_append_of_pos hbody]
  rfl

private theorem slash_append_of_block (h : ClosedOnce body) (after : List Char) :
    slash ('*' :: body ++ after) = ⟨.token .comment, '*' :: body, after⟩ := by
  rw [List.cons_append, slash, blockComment, closeComment?_append h]

theorem slash_cons_of_ne (hl : second ≠ '/') (hb : second ≠ '*') :
    slash (second :: text) = operator '/' (second :: text) := by
  unfold slash
  split
  · next he => exact (hl (List.cons.inj he).1).elim
  · next he => exact (hb (List.cons.inj he).1).elim
  · rfl

private theorem of_pair (hp : isOperatorPair first second) (hs : ¬ (first = '/' ∧ second = '/'))
    (after : List Char) :
    Cut.of dialect first (second :: after) = ⟨.token .operator, [second], after⟩ := by
  by_cases h : first = '/'
  · subst h
    have hall : ∀ pair ∈ operatorPairs, pair.1 = '/' → pair.2 = '/' ∨ pair.2 = '=' := by decide
    have hmem := List.contains_iff_mem.mp hp
    rcases hall _ hmem rfl with hc | hc
    · exact (hs ⟨rfl, hc⟩).elim
    · dsimp only at hc
      subst hc
      rfl
  · rw [of_operatorStart (isOperatorStart_of_isOperatorPair hp) h, operator, if_pos hp]

end Cut

/-- However a text goes on, no lexeme at its start is cut short. -/
theorem LexemeTail.prefix_more (h : LexemeTail dialect first kind more) (after : List Char) :
    more <+: (Cut.of dialect first (more ++ after)).more := by
  cases h with
  | int hd hm =>
    rw [Cut.of_digit hd, Cut.number_append_of_digits hm]
    split <;> exact List.prefix_append ..
  | float hd hw hf =>
    rw [Cut.of_digit hd, Cut.number_append_of_point hw hf]
    exact List.prefix_append ..
  | word hs hm =>
    rw [Cut.of_wordStart hs, Cut.word_append hm]
    exact List.prefix_append ..
  | string ht =>
    rw [Cut.of_quote, Cut.string_append ht]
  | lineComment hn =>
    rw [Cut.of_slash, Cut.slash_append_of_line hn]
    exact List.prefix_append ..
  | blockComment hb =>
    rw [Cut.of_slash, Cut.slash_append_of_block hb]
  | single hs => exact List.nil_prefix
  | pair hp hs =>
    rw [List.singleton_append, Cut.of_pair hp hs]

theorem endsBefore_wordKind {word : String} :
    endsBefore (dialect.wordKind word) text (some c) = !isWordPart c := by
  rw [Dialect.wordKind]
  split <;> rfl

private theorem operator_eq_iff (h : isSingleOperator first)
    (hs : ¬ (first = '/' ∧ after.head? = some '*')) :
    Cut.operator first after = ⟨.token .operator, [], after⟩ ↔
      endsBefore .operator [first] after.head? := by
  cases after with
  | nil => simp [Cut.operator, Cut.singleOperator, h, endsBefore]
  | cons c rest =>
    by_cases hp : isOperatorPair first c
    · simp [Cut.operator, hp, endsBefore]
    · have hb : ¬ (first = '/' ∧ c = '*') := by simpa using hs
      simp [Cut.operator, Cut.singleOperator, h, hp, endsBefore, Decidable.not_and_iff_or_not.mp hb]

private theorem slash_eq_iff (after : List Char) :
    Cut.slash after = ⟨.token .operator, [], after⟩ ↔ endsBefore .operator ['/'] after.head? := by
  have hs : isSingleOperator '/' := by decide
  cases after with
  | nil => decide
  | cons c rest =>
    by_cases hl : c = '/'
    · subst hl
      have hpair : isOperatorPair '/' '/' := by decide
      simp [Cut.slash, Cut.lineComment, endsBefore, hpair]
    by_cases hb : c = '*'
    · subst hb
      have hopen : endsBefore .operator ['/'] (some '*') = false := by decide
      simp only [Cut.slash, Cut.blockComment, List.head?_cons, hopen, Bool.false_eq_true, iff_false]
      split <;> simp
    rw [Cut.slash_cons_of_ne hl hb]
    apply operator_eq_iff hs
    simp [hb]

/-- A lexeme is cut off exactly where it ends if and only if the character behind it lets it end. -/
theorem LexemeTail.of_eq_iff (h : LexemeTail dialect first kind more) (after : List Char) :
    Cut.of dialect first (more ++ after) = ⟨.token kind, more, after⟩ ↔
      endsBefore kind (first :: more) after.head? := by
  cases h with
  | int hd hm =>
    rw [Cut.of_digit hd, Cut.number_append_of_digits hm]
    cases after with
    | nil => simp [endsBefore]
    | cons c rest =>
      by_cases hc : c.isDigit
      · have hends : endsBefore .int (first :: more) (some c) = false := by simp [endsBefore, hc]
        simp only [List.head?_cons, hends, Bool.false_eq_true, iff_false]
        split <;> simp [hc]
      · by_cases hp : c = '.'
        · subst hp
          simp [endsBefore]
        · simp [endsBefore, hc, hp]
  | float hd hw hf =>
    rw [Cut.of_digit hd, Cut.number_append_of_point hw hf]
    cases after with
    | nil => simp [endsBefore]
    | cons c rest => by_cases hc : c.isDigit <;> simp [endsBefore, hc]
  | word hs hm =>
    rw [Cut.of_wordStart hs, Cut.word_append hm]
    cases after with
    | nil => simp [endsBefore]
    | cons c rest => by_cases hc : isWordPart c <;> simp [endsBefore_wordKind, hc]
  | string ht =>
    rw [Cut.of_quote, Cut.string_append ht]
    cases after <;> simp [endsBefore]
  | lineComment hn =>
    rw [Cut.of_slash, Cut.slash_append_of_line hn]
    cases after with
    | nil => simp [endsBefore]
    | cons c rest => by_cases hc : c = '\n' <;> simp [endsBefore, hc]
  | blockComment hb =>
    rw [Cut.of_slash, Cut.slash_append_of_block hb]
    cases after <;> simp [endsBefore]
  | single hs =>
    rw [List.nil_append]
    by_cases hf : first = '/'
    · subst hf
      exact slash_eq_iff after
    · rw [Cut.of_operatorStart (by simp [isOperatorStart, hs]) hf]
      exact operator_eq_iff hs fun he => hf he.1
  | pair hp hs =>
    rw [List.singleton_append, Cut.of_pair hp hs]
    cases after <;> simp [endsBefore]

end ExprScan
