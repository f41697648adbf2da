import ExprScan.Proofs.Scan.Rounds
import Mathlib.Data.List.TakeWhile

/-! The first segment of a text is the one that the grammar alone determines: the longest lexeme
that the text starts with. -/
namespace ExprScan

open Lexeme

variable {dialect : Dialect} {kind : Kind} {fault : Fault} {first c : Char}
  {more text after lexeme : List Char}

namespace Cut

inductive Outcome (dialect : Dialect) (first : Char) (text : List Char) : Cut → Prop where
  | token {kind : Kind} {more rest : List Char} : LexemeTail dialect first kind more →
      Outcome dialect first text ⟨.token kind, more, rest⟩
  | opened {fault : Fault} : Open (first :: text) fault →
      Outcome dialect first text ⟨.fault fault, text, []⟩
  | skipped : (∀ kind more, more <+: text → ¬ LexemeTail dialect first kind more) →
      Outcome dialect first text
        ⟨if isBlank first then .blank else .fault .unknownCharacter, [], text⟩

private theorem number_outcome (h : first.isDigit) : Outcome dialect first text (number text) := by
  rw [number]
  split
  · next rest he =>
    exact .token (.float h (fun _ => List.mem_takeWhile_imp) (fun _ => List.mem_takeWhile_imp))
  · exact .token (.int h fun _ => List.mem_takeWhile_imp)

private theorem word_outcome (h : isWordStart first) :
    Outcome dialect first text (word dialect first text) :=
  .token (.word h fun _ => List.mem_takeWhile_imp)

private theorem string_outcome : Outcome dialect '"' text (string text) := by
  rw [string]
  split
  · next body rest hc => exact .token (.string (stringTail_of_closeString? hc))
  · next hc =>
    refine .opened (.string ⟨text, rfl⟩ ?_)
    intro lexeme hp hq
    cases lexeme with
    | nil =>
      have hnil : Lexeme dialect .string [] := hq
      exact (not_lexeme_nil hnil).elim
    | cons c body =>
      have hbody := (List.cons_prefix_cons.mp hp).2
      exact closeString?_eq_none hc hbody (quoted_cons_iff.mp hq).2

private theorem blockComment_outcome : Outcome dialect '/' ('*' :: text) (blockComment text) := by
  rw [blockComment]
  split
  · next body rest hc => exact .token (.blockComment (closedOnce_of_closeComment? hc))
  · next hc =>
    refine .opened (.comment ⟨text, rfl⟩ ?_)
    rintro lexeme hp ⟨body, rfl, hb⟩
    have hbody := (List.cons_prefix_cons.mp (List.cons_prefix_cons.mp hp).2).2
    exact closeComment?_eq_none hc hbody hb

private theorem lineComment_outcome : Outcome dialect '/' ('/' :: text) (lineComment text) := by
  refine .token (.lineComment ?_)
  intro hm
  have := List.mem_takeWhile_imp hm
  simp at this

private theorem singleOperator_outcome (h : isOperatorStart first)
    (hp : ∀ second, [second] <+: text → ¬ isOperatorPair first second) :
    Outcome dialect first text (singleOperator first text) := by
  rw [singleOperator]
  split
  · next hs => exact .token (.single hs)
  · next hs =>
    obtain ⟨hd, hw, hq, hb⟩ := plain_of_isOperatorStart h
    have hskip : Outcome dialect first text
        ⟨if isBlank first then .blank else .fault .unknownCharacter, [], text⟩ := by
      refine .skipped ?_
      intro kind more hm ht
      cases ht with
      | int h _ => rw [hd] at h; cases h
      | float h _ _ => rw [hd] at h; cases h
      | word h _ => rw [hw] at h; cases h
      | string _ => exact hq rfl
      | lineComment _ => exact hs (by decide)
      | blockComment _ => exact hs (by decide)
      | single h => exact hs h
      | pair h _ => exact hp _ hm h
    simpa [hb] using hskip

private theorem operator_outcome (h : isOperatorStart first)
    (hs : first = '/' → ¬ ['/'] <+: text) :
    Outcome dialect first text (operator first text) := by
  unfold operator
  split
  · refine singleOperator_outcome h ?_
    intro second hm
    simp at hm
  · next second rest =>
    split
    · next hp =>
      refine .token (.pair hp ?_)
      rintro ⟨hf, rfl⟩
      exact hs hf ⟨rest, rfl⟩
    · next hp =>
      refine singleOperator_outcome h ?_
      intro other hm
      rwa [(List.cons_prefix_cons.mp hm).1]

private theorem slash_outcome : Outcome dialect '/' text (slash text) := by
  unfold slash
  split
  · exact lineComment_outcome
  · exact blockComment_outcome
  · next hl hb =>
    refine operator_outcome (by decide) ?_
    rintro - ⟨rest, rfl⟩
    exact hl rest rfl

private theorem skip_outcome (hd : ¬ first.isDigit) (hw : ¬ isWordStart first) (hq : first ≠ '"')
    (hs : first ≠ '/') (ho : ¬ isOperatorStart first) :
    Outcome dialect first text (skip first text) := by
  refine .skipped ?_
  intro kind more _ h
  cases h with
  | int h _ => exact hd h
  | float h _ _ => exact hd h
  | word h _ => exact hw h
  | string _ => exact hq rfl
  | lineComment _ => exact hs rfl
  | blockComment _ => exact hs rfl
  | single h => exact ho (by simp [isOperatorStart, h])
  | pair h _ => exact ho (isOperatorStart_of_isOperatorPair h)

theorem of_outcome (dialect : Dialect) (first : Char) (text : List Char) :
    Outcome dialect first text (Cut.of dialect first text) := by
  rw [Cut.of]
  split
  · next hd => exact number_outcome hd
  split
  · next hw => exact word_outcome hw
  split
  · next hq => subst hq; exact string_outcome
  split
  · next hs => subst hs; exact slash_outcome
  split
  · next hs ho => exact operator_outcome ho fun hf => (hs hf).elim
  · next hd hw hq hs ho => exact skip_outcome hd hw hq hs ho

theorem tail_of_label (h : (Cut.of dialect first text).label = .token kind) :
    LexemeTail dialect first kind (Cut.of dialect first text).more := by
  have houtcome := of_outcome dialect first text
  generalize Cut.of dialect first text = cut at h houtcome
  cases houtcome with
  | token ht =>
    cases h
    exact ht
  | opened _ => cases h
  | skipped _ =>
    dsimp only at h
    split at h <;> cases h

end Cut

private theorem exists_tail_of_lexeme (hp : lexeme <+: first :: text)
    (h : Lexeme dialect kind lexeme) :
    ∃ more, lexeme = first :: more ∧ more <+: text ∧ LexemeTail dialect first kind more := by
  cases lexeme with
  | nil => exact (not_lexeme_nil h).elim
  | cons c more =>
    obtain ⟨rfl, hm⟩ := List.cons_prefix_cons.mp hp
    exact ⟨more, rfl, hm, lexemeTail_of_lexeme h⟩

/-- Lexemes are the texts that are cut as one token. -/
theorem lexeme_cons_iff : Lexeme dialect kind (first :: more) ↔
    Cut.of dialect first more = ⟨.token kind, more, []⟩ := by
  constructor
  · intro h
    have hcut := ((lexemeTail_of_lexeme h).of_eq_iff []).mpr rfl
    rwa [List.append_nil] at hcut
  · intro h
    have ht := Cut.tail_of_label (congrArg Cut.label h)
    rw [h] at ht
    exact ht.lexeme

instance (dialect : Dialect) (kind : Kind) (text : List Char) :
    Decidable (Lexeme dialect kind text) :=
  match text with
  | [] => isFalse not_lexeme_nil
  | _ :: _ => decidable_of_iff _ lexeme_cons_iff.symm

theorem kind_eq_of_lexeme {other : Kind} (h : Lexeme dialect kind lexeme)
    (ho : Lexeme dialect other lexeme) : kind = other := by
  cases lexeme with
  | nil => exact (not_lexeme_nil h).elim
  | cons first more =>
    have hcut := lexeme_cons_iff.mp h
    rw [lexeme_cons_iff.mp ho] at hcut
    exact (Label.token.inj (congrArg Cut.label hcut)).symm

/-- Keywords and operators are made of word characters and of the marks in operators. -/
theorem not_mem_of_lexeme (h : Lexeme dialect kind text)
    (hk : kind = .keyword ∨ kind = .operator)
    (hc : ¬ isWordPart c ∧ ¬ isSingleOperator c ∧ c ≠ '!') : c ∉ text := by
  obtain ⟨hword, hsingle, hmark⟩ := hc
  intro hm
  rcases hk with rfl | rfl
  · obtain ⟨⟨first, more, rfl, hs, hmore⟩, -⟩ := h
    rcases List.mem_cons.mp hm with rfl | hm
    · exact hword (Scanner.isWordPart_of_isWordStart hs)
    · exact hword (hmore c hm)
  · have hpairs : ∀ pair ∈ operatorPairs, (isSingleOperator pair.1 ∨ pair.1 = '!') ∧
        isSingleOperator pair.2 := by decide
    rcases h with ⟨o, ho, rfl⟩ | ⟨first, second, hp, rfl⟩
    · rw [List.mem_singleton.mp hm] at hsingle
      exact hsingle (List.contains_iff_mem.mpr ho)
    · obtain ⟨hfirst, hsecond⟩ := hpairs _ (List.mem_of_mem_erase hp)
      rcases List.mem_cons.mp hm with rfl | hm
      · exact hfirst.elim hsingle hmark
      · rw [List.mem_singleton.mp hm] at hsingle
        exact hsingle hsecond

theorem Open.ne_unknownCharacter (h : Open text fault) : fault ≠ .unknownCharacter := by
  cases h <;> decide

private theorem Open.fault_eq {other : Fault} (h : Open text fault) (ho : Open text other) :
    other = fault := by
  cases h with
  | string hp _ =>
    obtain ⟨rest, rfl⟩ := hp
    cases ho with
    | string _ _ => rfl
    | comment hq _ => simp at hq
  | comment hp _ =>
    obtain ⟨rest, rfl⟩ := hp
    cases ho with
    | string hq _ => simp at hq
    | comment _ _ => rfl

private theorem Open.of_eq (h : Open (first :: text) fault) :
    Cut.of dialect first text = ⟨.fault fault, text, []⟩ := by
  cases h with
  | string hp hn =>
    obtain ⟨rest, he⟩ := hp
    rw [List.singleton_append] at he
    obtain ⟨rfl, rfl⟩ := List.cons.inj he
    rw [Cut.of_quote, Cut.string]
    cases hc : Cut.closeString? rest with
    | none => rfl
    | some cut =>
      refine (hn ('"' :: cut.1) ?_ (quoted_cons_iff.mpr ⟨rfl, stringTail_of_closeString? hc⟩)).elim
      exact ⟨cut.2, congrArg ('"' :: ·) (Cut.append_of_closeString? hc)⟩
  | comment hp hn =>
    obtain ⟨rest, he⟩ := hp
    obtain ⟨rfl, rfl⟩ := List.cons.inj he
    change Cut.blockComment rest = _
    rw [Cut.blockComment]
    cases hc : Cut.closeComment? rest with
    | none => rfl
    | some cut =>
      refine (hn ('/' :: '*' :: cut.1) ?_ ⟨cut.1, rfl, closedOnce_of_closeComment? hc⟩).elim
      exact ⟨cut.2, congrArg ('/' :: '*' :: ·) (Cut.append_of_closeComment? hc)⟩

private theorem leading_of : Leading dialect (first :: text) (Cut.of dialect first text).label
    (first :: (Cut.of dialect first text).more) := by
  have hsplit := Cut.of_more_append_rest dialect first text
  have houtcome := Cut.of_outcome dialect first text
  generalize hcut : Cut.of dialect first text = cut at hsplit houtcome
  cases houtcome with
  | token ht =>
    refine .longest ?_ ⟨_, congrArg (first :: ·) hsplit⟩ ht.lexeme ?_
    · intro fault ho
      rw [ho.of_eq] at hcut
      cases hcut
    · intro other longer hp hl
      obtain ⟨more, rfl, ⟨after, rfl⟩, hm⟩ := exists_tail_of_lexeme hp hl
      have hle := (hm.prefix_more after).length_le
      rw [hcut] at hle
      exact Nat.succ_le_succ hle
  | opened ho => exact .opened ho
  | skipped hn =>
    refine .skipped ?_ ⟨text, rfl⟩ ?_
    · intro fault ho
      rw [ho.of_eq] at hcut
      have hlabel := congrArg Cut.label hcut
      dsimp only at hlabel
      split at hlabel
      · cases hlabel
      · exact ho.ne_unknownCharacter (Label.fault.inj hlabel)
    · intro kind lexeme hp hl
      obtain ⟨more, -, hm, ht⟩ := exists_tail_of_lexeme hp hl
      exact hn kind more hm ht

/-- The grammar asks for one segment only. -/
theorem Leading.unique {label other : Label} {segment : List Char}
    (h : Leading dialect text label lexeme) (ho : Leading dialect text other segment) :
    other = label ∧ segment = lexeme := by
  cases h with
  | opened hf =>
    cases ho with
    | opened hg => exact ⟨congrArg Label.fault (hf.fault_eq hg), rfl⟩
    | longest hn _ _ _ => exact (hn _ hf).elim
    | skipped hn _ _ => exact (hn _ hf).elim
  | longest hn hp hl hmax =>
    cases ho with
    | opened hg => exact (hn _ hg).elim
    | longest _ hq hm hmax' =>
      have hlen := Nat.le_antisymm (hmax' _ _ hp hl) (hmax _ _ hq hm)
      have hprefix := List.prefix_of_prefix_length_le hq hp (Nat.le_of_eq hlen.symm)
      cases hprefix.eq_of_length hlen.symm
      exact ⟨congrArg Label.token (kind_eq_of_lexeme hm hl), rfl⟩
    | skipped _ _ hs => exact (hs _ _ hp hl).elim
  | skipped hn hp hs =>
    cases ho with
    | opened hg => exact (hn _ hg).elim
    | longest _ hq hm _ => exact (hs _ _ hq hm).elim
    | skipped _ hq _ =>
      have he := (List.prefix_of_prefix_length_le hq hp (Nat.le_refl 1)).eq_of_length rfl
      cases he
      exact ⟨rfl, rfl⟩

private theorem leading_iff {label : Label} {segment : List Char} :
    Leading dialect (first :: text) label segment ↔
      label = (Cut.of dialect first text).label ∧
        segment = first :: (Cut.of dialect first text).more := by
  constructor
  · exact leading_of.unique
  · rintro ⟨rfl, rfl⟩
    exact leading_of

/-- A scan cuts its text as the grammar asks: every piece is what the rest of the text must start
with, and a scanner reads that piece in one round. -/
theorem scan_leftmost_longest (dialect : Dialect) (source : String) :
    (∀ done piece later, (Scan.ofString dialect source).pieces = done ++ piece :: later →
      ∀ label segment, Leading dialect ((piece :: later).flatMap (·.text)) label segment ↔
        label = piece.label ∧ segment = piece.text) ∧
    (source.utf8ByteSize < Offset.bound → ∀ scanner : Scanner, scanner.Reached dialect source →
      scanner.reader.rest ≠ [] → ∃ piece after, scanner.Next after ∧ scanner.Reads piece after ∧
        ∀ label segment, Leading dialect scanner.reader.rest label segment ↔
          label = piece.label ∧ segment = piece.text) := by
  refine ⟨?_, ?_⟩
  · intro done piece later h label segment
    obtain ⟨first, rest, -, rfl, rfl⟩ := Piece.place_segments_split h
    rw [List.flatMap_cons, Piece.flatMap_text_place, flatMap_text_segments]
    dsimp only [Cut.piece]
    rw [List.cons_append, Cut.of_more_append_rest]
    exact leading_iff
  · intro hfits scanner hreached hrest
    obtain ⟨done, first, text, hcons, hb⟩ := hreached.between_cons hfits hrest
    refine ⟨_, _, hb.next_iff.mpr rfl, hb.reads, ?_⟩
    intro label segment
    rw [hcons]
    exact leading_iff

theorem scan_leftmost_longest_pair : ∃ piece after,
    (Scanner.start .standard "<=1").Next after ∧
      (Scanner.start .standard "<=1").Reads piece after ∧
      ∀ label segment, Leading .standard ['<', '=', '1'] label segment ↔
        label = piece.label ∧ segment = piece.text :=
  (scan_leftmost_longest .standard "<=1").2 (by decide) _ .refl (by decide)

end ExprScan
