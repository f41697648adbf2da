import ExprScan.Scan.Lexeme

/-! Where strings and block comments close. The search for the end of either is exact: it finds the
texts that the grammar describes and no others. -/
namespace ExprScan

open Lexeme

variable {text body after : List Char} {c : Char}

def StringTail (body : List Char) : Prop :=
  ∃ items : List (List Char), (∀ item ∈ items, Item item) ∧ body = items.flatten ++ ['"']

theorem quoted_cons_iff : Quoted (c :: body) ↔ c = '"' ∧ StringTail body := by
  constructor
  · rintro ⟨items, hitems, he⟩
    obtain ⟨rfl, rfl⟩ := List.cons.inj he
    exact ⟨rfl, items, hitems, rfl⟩
  · rintro ⟨rfl, items, hitems, rfl⟩
    exact ⟨items, hitems, rfl⟩

private theorem StringTail.item {item : List Char} (hi : Item item) (h : StringTail body) :
    StringTail (item ++ body) := by
  obtain ⟨items, hitems, rfl⟩ := h
  refine ⟨item :: items, ?_, by simp⟩
  intro other ho
  rcases List.mem_cons.mp ho with rfl | ho
  · exact hi
  · exact hitems other ho

theorem StringTail.escape (c : Char) (h : StringTail body) : StringTail ('\\' :: c :: body) :=
  item (.inr ⟨c, rfl⟩) h

theorem StringTail.plain (hq : c ≠ '"') (hb : c ≠ '\\') (h : StringTail body) :
    StringTail (c :: body) :=
  item (.inl ⟨c, hq, hb, rfl⟩) h

theorem closeString?_append (h : StringTail body) :
    Cut.closeString? (body ++ after) = some (body, after) := by
  obtain ⟨items, hitems, rfl⟩ := h
  induction items with
  | nil => rfl
  | cons item items ih =>
    have hrest := ih fun other ho => hitems other (List.mem_cons_of_mem _ ho)
    rcases hitems item List.mem_cons_self with ⟨c, hq, hb, rfl⟩ | ⟨c, rfl⟩
    · rw [List.flatten_cons, List.singleton_append, List.cons_append, List.cons_append,
        Cut.closeString?.eq_4 _ _ hq fun _ _ he => (hb he).elim, hrest]
      rfl
    · simp only [List.flatten_cons, List.cons_append, List.nil_append, Cut.closeString?]
      rw [hrest]
      rfl

theorem stringTail_of_closeString? (h : Cut.closeString? text = some (body, after)) :
    StringTail body := by
  fun_induction Cut.closeString? text generalizing body with
  | case1 => cases h
  | case2 text => cases h; exact ⟨[], by simp, rfl⟩
  | case3 c text ih =>
    obtain ⟨⟨inner, behind⟩, hr, he⟩ := Option.map_eq_some_iff.mp h
    cases he
    exact (ih hr).escape c
  | case4 c text hq he ih =>
    obtain ⟨⟨inner, behind⟩, hr, hb⟩ := Option.map_eq_some_iff.mp h
    cases hb
    by_cases hc : c = '\\'
    · -- a backslash stands alone only where the text ends, and then nothing closes the string
      cases text with
      | nil => cases hr
      | cons d text => exact (he d text hc rfl).elim
    · exact (ih hr).plain hq hc

theorem closeString?_eq_none (h : Cut.closeString? text = none) (hp : body <+: text) :
    ¬ StringTail body := by
  obtain ⟨after, rfl⟩ := hp
  intro ht
  rw [closeString?_append ht] at h
  cases h

theorem closedOnce_cons_iff : ClosedOnce (c :: body) ↔
    c = '*' ∧ body = ['/'] ∨ ClosedOnce body ∧ ∀ rest, c = '*' → body ≠ '/' :: rest := by
  constructor
  · rintro ⟨⟨inner, he⟩, hfirst⟩
    cases inner with
    | nil => exact .inl (by simpa using he)
    | cons d inner =>
      obtain ⟨rfl, rfl⟩ := List.cons.inj he
      refine .inr ⟨⟨⟨inner, rfl⟩, ?_⟩, ?_⟩
      · intro before after hb
        exact hfirst (c :: before) after (by rw [hb]; rfl)
      · rintro rest rfl hr
        have hnil := hfirst [] rest (by rw [hr]; rfl)
        have := congrArg List.length hr
        simp [hnil] at this
  · rintro (⟨rfl, rfl⟩ | ⟨⟨⟨inner, rfl⟩, hfirst⟩, hc⟩)
    · refine ⟨⟨[], rfl⟩, ?_⟩
      intro before after he
      have := congrArg List.length he
      simp at this
      exact List.length_eq_zero_iff.mp (by omega)
    · refine ⟨⟨c :: inner, rfl⟩, ?_⟩
      intro before after he
      cases before with
      | nil =>
        obtain ⟨hs, hr⟩ := List.cons.inj he
        exact (hc after hs hr).elim
      | cons d before => exact hfirst before after (List.cons.inj he).2

private theorem not_closedOnce_nil : ¬ ClosedOnce [] := by
  rintro ⟨⟨body, he⟩, _⟩
  simp at he

theorem closeComment?_append (h : ClosedOnce body) :
    Cut.closeComment? (body ++ after) = some (body, after) := by
  induction body with
  | nil => exact (not_closedOnce_nil h).elim
  | cons c body ih =>
    rcases closedOnce_cons_iff.mp h with ⟨rfl, rfl⟩ | ⟨hb, hc⟩
    · rfl
    · have hother : ∀ rest, c = '*' → body ++ after = '/' :: rest → False := by
        intro rest hs he
        cases body with
        | nil => exact not_closedOnce_nil hb
        | cons d body => exact hc body hs (by rw [(List.cons.inj he).1])
      rw [List.cons_append, Cut.closeComment?.eq_3 _ _ hother, ih hb]
      rfl

theorem closedOnce_of_closeComment? (h : Cut.closeComment? text = some (body, after)) :
    ClosedOnce body := by
  fun_induction Cut.closeComment? text generalizing body with
  | case1 => cases h
  | case2 text => cases h; exact closedOnce_cons_iff.mpr (.inl ⟨rfl, rfl⟩)
  | case3 c text hother ih =>
    obtain ⟨⟨inner, behind⟩, hr, he⟩ := Option.map_eq_some_iff.mp h
    cases he
    refine closedOnce_cons_iff.mpr (.inr ⟨ih hr, ?_⟩)
    rintro rest hs rfl
    exact hother (rest ++ after) hs (Cut.append_of_closeComment? hr).symm

theorem closeComment?_eq_none (h : Cut.closeComment? text = none) (hp : body <+: text) :
    ¬ ClosedOnce body := by
  obtain ⟨after, rfl⟩ := hp
  intro hc
  rw [closeComment?_append hc] at h
  cases h

end ExprScan
