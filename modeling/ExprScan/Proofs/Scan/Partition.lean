import ExprScan.Proofs.Scan.Layout
import ExprScan.Proofs.Scan.Tiling
import ExprScan.Scan.Partition

/-! How a text is cut can be told from the segments alone: a list of segments is what its text is cut
into if and only if it is a partition. So a text can be joined to another one behind every segment
that ends there. -/
namespace ExprScan

variable {dialect : Dialect} {kind : Kind} {first c : Char} {more text after : List Char} {label : Label}
  {segment : Segment} {front later list : List Segment}

private theorem Segment.endsBefore_none : segment.endsBefore none := by
  obtain ⟨label, text⟩ := segment
  cases label with
  | token kind => rfl
  | fault fault => cases fault <;> rfl
  | blank => rfl

theorem not_isOperatorPair_of_isBlank {o : Char} (h : isBlank c) : ¬ isOperatorPair o c := by
  have hall : ∀ pair ∈ operatorPairs, isBlank pair.2 = false := by decide
  intro hp
  have hb := hall (o, c) (List.contains_iff_mem.mp hp)
  dsimp only at hb
  rw [h] at hb
  cases hb

private theorem not_isWordPart_of_isBlank (h : isBlank c) : ¬ isWordPart c := by
  obtain ⟨hd, hw⟩ := plain_of_isBlank h
  have hu : c ≠ '_' := by rintro rfl; revert h; decide
  rw [isWordStart] at hw
  simp [isWordPart, Char.isAlphanum, hd, hw, hu]

/-- Blanks end all tokens, except that a line comment only ends before a newline. -/
private theorem endsBefore_of_isBlank (h : isBlank c) (hk : kind = .comment → c = '\n') :
    endsBefore kind text (some c) := by
  obtain ⟨hd, -⟩ := plain_of_isBlank h
  have hpoint : c ≠ '.' := by rintro rfl; revert h; decide
  have hstar : c ≠ '*' := by rintro rfl; revert h; decide
  cases kind with
  | int => simp [endsBefore, hd, hpoint]
  | float => simp [endsBefore, hd]
  | identifier => simp [endsBefore, not_isWordPart_of_isBlank h]
  | keyword => simp [endsBefore, not_isWordPart_of_isBlank h]
  | operator =>
    simp only [endsBefore]
    split
    · simp [not_isOperatorPair_of_isBlank h, hstar]
    · rfl
  | string => rfl
  | comment => simp [endsBefore, hk rfl]

theorem Segment.endsBefore_of_isBlank (h : isBlank c)
    (hc : segment.label = .token .comment → c = '\n')
    (hf : ∀ fault, segment.label = .fault fault → fault = .unknownCharacter) :
    segment.endsBefore (some c) := by
  obtain ⟨label, text⟩ := segment
  cases label with
  | token kind => exact ExprScan.endsBefore_of_isBlank h fun hk => hc (congrArg Label.token hk)
  | fault fault =>
    cases hf fault rfl
    have hends : ExprScan.endsBefore .operator text (some c) :=
      ExprScan.endsBefore_of_isBlank h (by simp)
    exact hends
  | blank => rfl

/-- A closed token ends before every character. -/
theorem Token.Closed.endsBefore {token : Token} (h : token.Closed) (next : Option Char) :
    endsBefore token.kind token.lexeme.toList next := by
  obtain ⟨kind, lexeme⟩ := token
  cases next with
  | none => rfl
  | some c =>
    rcases h with hk | ⟨hk, body, hb, -⟩ | ⟨hk, hl⟩
    · dsimp only at hk
      rw [hk]
      rfl
    · dsimp only at hk hb
      rw [hk, hb]
      rfl
    · dsimp only at hk hl
      rw [← String.length_toList] at hl
      obtain ⟨first, second, hs⟩ := List.length_eq_two.mp hl
      rw [hk, hs]
      rfl

namespace Cut

private theorem slash_label_ne_unknown : (slash text).label ≠ .fault .unknownCharacter := by
  unfold slash
  split
  · simp [lineComment]
  · unfold blockComment
    split <;> simp
  · have hs : isSingleOperator '/' := by decide
    unfold operator
    split
    · simp [singleOperator, hs]
    · split <;> simp [singleOperator, hs]

private theorem operator_eq_unknown_iff (h : first ≠ '/') :
    operator first text = ⟨.fault .unknownCharacter, [], text⟩ ↔
      operator first [] = ⟨.fault .unknownCharacter, [], []⟩ ∧
        endsBefore .operator [first] text.head? := by
  cases text with
  | nil => simp [endsBefore]
  | cons c rest =>
    by_cases hp : isOperatorPair first c
    · simp [operator, endsBefore, hp]
    · simp [operator, singleOperator, endsBefore, hp, h]

private theorem of_eq_unknown_iff :
    Cut.of dialect first text = ⟨.fault .unknownCharacter, [], text⟩ ↔
      Cut.of dialect first [] = ⟨.fault .unknownCharacter, [], []⟩ ∧
        endsBefore .operator [first] text.head? := by
  have hlabel (text : List Char) (cut : Cut) (h : cut.label ≠ .fault .unknownCharacter) :
      cut ≠ ⟨.fault .unknownCharacter, [], text⟩ := by
    rintro rfl
    exact h rfl
  unfold Cut.of
  -- numbers, words, strings and what a slash starts are never unknown, whatever follows
  split
  · have hnumber (text : List Char) : (number text).label ≠ .fault .unknownCharacter := by
      unfold number
      split <;> simp
    simp [hlabel, hnumber]
  split
  · simp [word]
  split
  · have hstring (text : List Char) : (string text).label ≠ .fault .unknownCharacter := by
      unfold string
      split <;> simp
    simp [hlabel, hstring]
  split
  · simp [hlabel, slash_label_ne_unknown]
  split
  · next hs _ => exact operator_eq_unknown_iff hs
  · next hs ho =>
    have hends : endsBefore .operator [first] text.head? := by
      cases text with
      | nil => rfl
      | cons c rest =>
        have hp : ¬ isOperatorPair first c := fun hp => ho (isOperatorStart_of_isOperatorPair hp)
        simp [endsBefore, hp, hs]
    simp [skip, hends]

private theorem of_append_iff (h : Cut.of dialect first more = ⟨label, more, []⟩)
    (after : List Char) :
    Cut.of dialect first (more ++ after) = ⟨label, more, after⟩ ↔
      Segment.endsBefore ⟨label, first :: more⟩ after.head? := by
  have houtcome := of_outcome dialect first more
  rw [h] at houtcome
  cases houtcome with
  | token ht => exact ht.of_eq_iff after
  | opened ho =>
    rename_i fault
    have hends : Segment.endsBefore ⟨.fault fault, first :: more⟩ after.head? ↔ after = [] := by
      cases ho <;> simp [Segment.endsBefore]
    rw [hends]
    constructor
    · intro hcut
      have hnil := rest_eq_nil_of_label (congrArg Cut.label hcut) ho.ne_unknownCharacter
      rwa [hcut] at hnil
    · rintro rfl
      rwa [List.append_nil]
  | skipped _ =>
    by_cases hb : isBlank first
    · simp [hb, of_blank, Segment.endsBefore]
    · simp only [hb, Bool.false_eq_true, if_false, List.nil_append] at h ⊢
      rw [of_eq_unknown_iff, and_iff_right h]
      rfl

private theorem of_more (dialect : Dialect) (first : Char) (text : List Char) :
    Cut.of dialect first (Cut.of dialect first text).more =
      ⟨(Cut.of dialect first text).label, (Cut.of dialect first text).more, []⟩ := by
  have houtcome := of_outcome dialect first text
  generalize hcut : Cut.of dialect first text = cut at houtcome
  cases houtcome with
  | token ht => exact lexeme_cons_iff.mp ht.lexeme
  | opened _ => exact hcut
  | skipped _ =>
    by_cases hb : isBlank first
    · simp [hb, of_blank]
    · simp only [hb, Bool.false_eq_true, if_false] at hcut ⊢
      exact (of_eq_unknown_iff.mp hcut).1

end Cut

namespace Segment

theorem whole_mk_iff : Whole dialect ⟨label, first :: more⟩ ↔
    Cut.of dialect first more = ⟨label, more, []⟩ := by
  have hmore := Cut.of_more_append_rest dialect first more
  rw [Whole, segments]
  constructor
  · intro h
    obtain ⟨hsegment, hrest⟩ := List.cons.inj h
    have hnil : (Cut.of dialect first more).rest = [] := by
      rw [← flatMap_text_segments dialect (Cut.of dialect first more).rest, hrest]
      rfl
    rw [hnil, List.append_nil] at hmore
    have hlabel := congrArg Segment.label hsegment
    generalize Cut.of dialect first more = cut at hlabel hmore hnil ⊢
    obtain ⟨_, _, _⟩ := cut
    dsimp only at hlabel hmore hnil
    rw [hlabel, hmore, hnil]
  · intro h
    simp [h, segments]

theorem Whole.exists_cons (h : segment.Whole dialect) :
    ∃ first more, segment.text = first :: more ∧
      Cut.of dialect first more = ⟨segment.label, more, []⟩ := by
  obtain ⟨label, text⟩ := segment
  cases text with
  | nil => simp [Whole, segments] at h
  | cons first more => exact ⟨first, more, rfl, whole_mk_iff.mp h⟩

end Segment

private theorem segments_append_of_endsBefore (h : segment.Whole dialect)
    (he : segment.endsBefore after.head?) :
    segments dialect (segment.text ++ after) = segment :: segments dialect after := by
  obtain ⟨label, text⟩ := segment
  obtain ⟨first, more, ht, hcut⟩ := h.exists_cons
  dsimp only at ht hcut
  subst ht
  rw [List.cons_append, segments, (Cut.of_append_iff hcut after).mpr he]

theorem partition_segments (dialect : Dialect) (text : List Char) :
    Partition dialect (segments dialect text) := by
  fun_induction segments dialect text with
  | case1 => trivial
  | case2 first text cut ih =>
    have hmore := Cut.of_more dialect first text
    refine ⟨Segment.whole_mk_iff.mpr hmore, ?_, ih⟩
    rw [flatMap_text_segments, ← Cut.of_append_iff hmore, Cut.of_more_append_rest]

/-- A list of segments is what its text is cut into if and only if it is a partition. -/
theorem segments_flatMap_iff :
    segments dialect (list.flatMap Segment.text) = list ↔ Partition dialect list := by
  constructor
  · intro h
    rw [← h]
    exact partition_segments dialect _
  · intro h
    induction list with
    | nil => simp [segments]
    | cons segment later ih =>
      obtain ⟨hwhole, hends, hlater⟩ := h
      rw [List.flatMap_cons, segments_append_of_endsBefore hwhole hends, ih hlater]

theorem Partition.head?_append (h : Partition dialect list) (hn : list ≠ []) (after : List Char) :
    (list.flatMap Segment.text ++ after).head? = (list.flatMap Segment.text).head? := by
  cases list with
  | nil => exact (hn rfl).elim
  | cons segment later =>
    obtain ⟨first, more, ht, -⟩ := h.1.exists_cons
    simp [ht]

/-- Two partitions can be joined if and only if the first ends before the second. -/
theorem partition_append_iff : Partition dialect (front ++ later) ↔
    Partition dialect front ∧ Partition dialect later ∧
      ∀ segment ∈ front.getLast?, segment.endsBefore (later.flatMap Segment.text).head? := by
  induction front with
  | nil => simp [Partition]
  | cons segment front ih =>
    cases front with
    | nil => simp [Partition, Segment.endsBefore_none, and_comm]
    | cons second front =>
      -- the first segment sees no further than into the second one
      have hhead (h : Partition dialect (second :: front)) :=
        h.head?_append (List.cons_ne_nil _ _) (later.flatMap Segment.text)
      rw [List.cons_append, Partition, ih, Partition, List.flatMap_append]
      constructor
      · rintro ⟨hwhole, hends, hfront, hlater, hjoint⟩
        rw [hhead hfront] at hends
        exact ⟨⟨hwhole, hends, hfront⟩, hlater, hjoint⟩
      · rintro ⟨⟨hwhole, hends, hfront⟩, hlater, hjoint⟩
        rw [← hhead hfront] at hends
        exact ⟨hwhole, hends, hfront, hlater, hjoint⟩

/-- More text behind a text leaves all segments up to one as they are, if that one ends before what
then follows it. -/
theorem segments_append (after : List Char) (h : segments dialect text = front ++ later)
    (he : ∀ segment ∈ front.getLast?,
      segment.endsBefore (later.flatMap Segment.text ++ after).head?) :
    segments dialect (text ++ after) =
      front ++ segments dialect (later.flatMap Segment.text ++ after) := by
  have hfront := (partition_append_iff.mp (h ▸ partition_segments dialect text)).1
  have hjoined : Partition dialect
      (front ++ segments dialect (later.flatMap Segment.text ++ after)) := by
    rw [partition_append_iff, flatMap_text_segments]
    exact ⟨hfront, partition_segments dialect _, he⟩
  rw [← segments_flatMap_iff.mpr hjoined, List.flatMap_append, flatMap_text_segments,
    ← List.append_assoc, ← List.flatMap_append, ← h, flatMap_text_segments]

end ExprScan
