import ExprScan.Proofs.Text.Lines
import ExprScan.Text.Search
import Mathlib.Order.Bounds.Basic

/-! The line at an offset, told by the newlines of the text alone: it starts behind the last newline in
front of the offset and ends behind the first one from there on. The search that goes through the text
once finds that line, and the spans of all lines follow each other from the first byte to the last. -/
namespace ExprScan

def newlines (start : Offset) : List Char → List Offset
  | [] => []
  | c :: text =>
    if c = '\n' then start :: newlines (start + c.utf8Size) text
    else newlines (start + c.utf8Size) text

/-- The line of a text that an offset is on, whether or not a character starts at that offset. -/
structure Line.StandsAt (source : String) (target : Offset) (line : Line) : Prop where
  number : line.number = (newlines 0 source.toList).countP (· < target) + 1
  start : IsGreatest {offset | offset = 0 ∨ ∃ newline ∈ newlines 0 source.toList,
    newline < target ∧ offset = newline + 1} line.span.start
  stop : IsLeast {offset | offset = source.utf8ByteSize ∨ ∃ newline ∈ newlines 0 source.toList,
    target ≤ newline ∧ offset = newline + 1} line.span.stop
  text : line.span.slice? source = some (String.ofList line.text)

/-- Spans from one offset to another, each of them starting where the one before it stops. -/
def Span.Chain (start : Offset) : List Span → Offset → Prop
  | [], stop => start = stop
  | span :: later, stop => span.start = start ∧ start ≤ span.stop ∧ Chain span.stop later stop

variable {source : String} {text before more : List Char} {list : List (List Char)}
  {start target newline number index : Nat}

private theorem newlines_append (start : Nat) (before more : List Char) :
    newlines start (before ++ more) =
      newlines start before ++ newlines (start + byteSize before) more := by
  induction before generalizing start with
  | nil => rfl
  | cons c before ih =>
    rw [List.cons_append, newlines, newlines, ih, byteSize_cons, Nat.add_assoc]
    split <;> rfl

private theorem mem_newlines_iff : newline ∈ newlines start text ↔
    ∃ before after, text = before ++ '\n' :: after ∧ newline = start + byteSize before := by
  constructor
  · intro h
    induction text generalizing start with
    | nil => cases h
    | cons c text ih =>
      have hlater (h : newline ∈ newlines (start + c.utf8Size) text) :
          ∃ before after, c :: text = before ++ '\n' :: after ∧
            newline = start + byteSize before := by
        obtain ⟨before, after, rfl, rfl⟩ := ih h
        exact ⟨c :: before, after, rfl, by rw [byteSize_cons, Nat.add_assoc]⟩
      rw [newlines] at h
      split at h
      · next hc =>
        rcases List.mem_cons.mp h with rfl | h
        · exact ⟨[], text, by rw [hc]; rfl, rfl⟩
        · exact hlater h
      · exact hlater h
  · rintro ⟨before, after, rfl, rfl⟩
    rw [newlines_append]
    exact List.mem_append_right _ List.mem_cons_self

private theorem newlines_of_not_mem (h : '\n' ∉ text) : newlines start text = [] := by
  apply List.eq_nil_iff_forall_not_mem.mpr
  intro newline hm
  obtain ⟨before, after, rfl, -⟩ := mem_newlines_iff.mp hm
  simp at h

private theorem length_newlines (start : Nat) (text : List Char) :
    (newlines start text).length = text.count '\n' := by
  induction text generalizing start with
  | nil => rfl
  | cons c text ih =>
    rw [newlines]
    split
    · next hc => rw [List.length_cons, ih, hc, List.count_cons_self]
    · next hc => rw [ih, List.count_cons_of_ne hc]

private theorem lt_of_mem_newlines (h : newline ∈ newlines start text) :
    newline < start + byteSize text := by
  obtain ⟨before, after, rfl, rfl⟩ := mem_newlines_iff.mp h
  have hnewline : '\n'.utf8Size = 1 := rfl
  rw [byteSize_append, byteSize_cons, hnewline]
  omega

/-- The text in front of an offset and the text from there on. A character that the offset is inside
of belongs to the second. -/
structure PartsAt (text : List Char) (target : Nat) (before more : List Char) : Prop where
  text : text = before ++ more
  le : byteSize before ≤ target
  ahead : ∀ newline ∈ newlines (byteSize before) more, target ≤ newline
  reach : target < byteSize before + byteSize (firstLine more) ∨
    more = [] ∧ target = byteSize before

private theorem exists_partsAt (h : target ≤ byteSize text) :
    ∃ before more, PartsAt text target before more := by
  induction text generalizing target with
  | nil => exact ⟨[], [], rfl, Nat.zero_le _, List.forall_mem_nil _, .inr ⟨rfl, Nat.le_zero.mp h⟩⟩
  | cons c text ih =>
    rw [byteSize_cons] at h
    -- an offset inside of a character belongs to what starts with that character
    by_cases hlt : target < c.utf8Size
    · refine ⟨[], c :: text, rfl, Nat.zero_le _, ?_, .inl ?_⟩
      · intro newline hm
        obtain ⟨before, after, he, rfl⟩ := mem_newlines_iff.mp hm
        cases before with
        | nil =>
          obtain ⟨rfl, -⟩ := List.cons.inj he
          exact Nat.le_of_lt_succ hlt
        | cons d before =>
          obtain ⟨rfl, -⟩ := List.cons.inj he
          rw [byteSize_nil, byteSize_cons]
          omega
      · have hline := utf8Size_le_byteSize_firstLine c text
        rw [byteSize_nil]
        omega
    · obtain ⟨count, rfl⟩ := Nat.exists_eq_add_of_le (Nat.le_of_not_lt hlt)
      obtain ⟨before, more, hparts⟩ := ih (Nat.le_of_add_le_add_left h)
      refine ⟨c :: before, more, congrArg (c :: ·) hparts.text,
        Nat.add_le_add_left hparts.le _, ?_, ?_⟩
      · intro newline hm
        obtain ⟨between, after, he, rfl⟩ := mem_newlines_iff.mp hm
        have hahead := hparts.ahead _ (mem_newlines_iff.mpr ⟨between, after, he, rfl⟩)
        rw [byteSize_cons]
        omega
      · rw [byteSize_cons]
        rcases hparts.reach with hreach | ⟨rfl, rfl⟩
        · exact .inl (by omega)
        · exact .inr ⟨rfl, rfl⟩

namespace PartsAt

variable (h : PartsAt text target before more)

include h

private theorem mem_and_lt_iff : newline ∈ newlines 0 text ∧ newline < target ↔
    newline ∈ newlines 0 before := by
  rw [h.text, newlines_append, Nat.zero_add, List.mem_append]
  constructor
  · rintro ⟨hm | hm, hlt⟩
    · exact hm
    · exact (Nat.not_lt_of_le (h.ahead newline hm) hlt).elim
  · intro hm
    have hlt := lt_of_mem_newlines hm
    rw [Nat.zero_add] at hlt
    exact ⟨.inl hm, Nat.lt_of_lt_of_le hlt h.le⟩

private theorem mem_and_le_iff : newline ∈ newlines 0 text ∧ target ≤ newline ↔
    newline ∈ newlines (byteSize before) more := by
  rw [h.text, newlines_append, Nat.zero_add, List.mem_append]
  constructor
  · rintro ⟨hm | hm, hle⟩
    · have hlt := lt_of_mem_newlines hm
      rw [Nat.zero_add] at hlt
      exact (Nat.not_le_of_lt (Nat.lt_of_lt_of_le hlt h.le) hle).elim
    · exact hm
  · intro hm
    exact ⟨.inr hm, h.ahead newline hm⟩

private theorem countP_newlines : (newlines 0 text).countP (· < target) = before.count '\n' := by
  have hbehind : (newlines (byteSize before) more).countP (· < target) = 0 := by
    rw [List.countP_eq_zero]
    intro newline hm
    simpa using h.ahead newline hm
  have hfront : (newlines 0 before).countP (· < target) = (newlines 0 before).length := by
    rw [List.countP_eq_length]
    intro newline hm
    simpa using (h.mem_and_lt_iff.mpr hm).2
  rw [h.text, newlines_append, List.countP_append, Nat.zero_add, hbehind, hfront, length_newlines]
  rfl

private theorem isGreatest_start : IsGreatest {offset | offset = 0 ∨ ∃ newline ∈ newlines 0 text,
    newline < target ∧ offset = newline + 1} (byteSize (before.rdropWhile (· ≠ '\n'))) := by
  have hset : {offset | offset = 0 ∨ ∃ newline ∈ newlines 0 text,
      newline < target ∧ offset = newline + 1} =
        {offset | offset = 0 ∨ ∃ newline ∈ newlines 0 before, offset = newline + 1} := by
    ext offset
    simp only [Set.mem_ofPred_eq, ← h.mem_and_lt_iff, and_assoc]
  rw [hset]
  rcases eq_append_lastLine_or before with hn | ⟨front, he⟩
  · rw [List.rdropWhile_eq_nil_iff.mpr (forall_ne_of_not_mem hn), newlines_of_not_mem hn]
    refine ⟨.inl rfl, ?_⟩
    rintro offset (rfl | ⟨newline, hm, -⟩)
    · exact Nat.le_refl _
    · cases hm
  · have hlast := not_mem_lastLine before
    generalize lastLine before = line at he hlast
    subst he
    rw [rdropWhile_append_newline front hlast, byteSize_append, newlines_append, newlines,
      if_pos rfl, newlines_of_not_mem hlast, Nat.zero_add]
    refine ⟨.inr ⟨byteSize front, by simp, rfl⟩, ?_⟩
    rintro offset (rfl | ⟨newline, hm, rfl⟩)
    · exact Nat.zero_le _
    · rcases List.mem_append.mp hm with hm | hm
      · have hlt := lt_of_mem_newlines hm
        rw [Nat.zero_add] at hlt
        exact Nat.succ_le_succ (Nat.le_of_lt hlt)
      · rw [List.mem_singleton.mp hm]
        exact Nat.le_refl _

private theorem isLeast_stop :
    IsLeast {offset | offset = byteSize text ∨ ∃ newline ∈ newlines 0 text,
      target ≤ newline ∧ offset = newline + 1} (byteSize before + byteSize (firstLine more)) := by
  have hset : {offset | offset = byteSize text ∨ ∃ newline ∈ newlines 0 text,
      target ≤ newline ∧ offset = newline + 1} = {offset | offset = byteSize text ∨
        ∃ newline ∈ newlines (byteSize before) more, offset = newline + 1} := by
    ext offset
    simp only [Set.mem_ofPred_eq, ← h.mem_and_le_iff, and_assoc]
  rw [hset, h.text, byteSize_append]
  rcases eq_firstLine_append_or more with hn | ⟨line, rest, rfl, hn⟩
  · rw [newlines_of_not_mem hn, firstLine_of_not_mem hn]
    refine ⟨.inl rfl, ?_⟩
    rintro offset (rfl | ⟨newline, hm, -⟩)
    · exact Nat.le_refl _
    · cases hm
  · have hline : firstLine (line ++ '\n' :: rest) = line ++ ['\n'] :=
      firstLine_append_of_not_mem hn _
    have hsize : byteSize before + byteSize (line ++ ['\n']) =
        byteSize before + byteSize line + 1 := by
      rw [byteSize_append, Nat.add_assoc]
      rfl
    rw [hline, newlines_append, newlines_of_not_mem hn, newlines, if_pos rfl, hsize,
      List.nil_append]
    refine ⟨.inr ⟨_, List.mem_cons_self, rfl⟩, ?_⟩
    rintro offset (rfl | ⟨newline, hm, rfl⟩)
    · rw [byteSize_append, byteSize_cons]
      have hpos := Char.utf8Size_pos '\n'
      omega
    · rcases List.mem_cons.mp hm with rfl | hm
      · exact Nat.le_refl _
      · obtain ⟨between, after, -, rfl⟩ := mem_newlines_iff.mp hm
        omega

end PartsAt

/-! The lines of a text one by one. -/

private theorem ne_nil_of_mem_cutLines {line : List Char} (h : line ∈ cutLines text) :
    line ≠ [] := by
  induction text generalizing line with
  | nil => cases h
  | cons c text ih =>
    rw [cutLines] at h
    split at h
    · rcases List.mem_cons.mp h with rfl | h
      · exact List.cons_ne_nil _ _
      · exact ih h
    · split at h
      · rw [List.mem_singleton.mp h]
        exact List.cons_ne_nil _ _
      · next later he =>
        rcases List.mem_cons.mp h with rfl | h
        · exact List.cons_ne_nil _ _
        · exact ih (by rw [he]; exact List.mem_cons_of_mem _ h)

/-- Only behind a newline, or in front of everything, is the last line empty. -/
private theorem lines_eq_cutLines_or (text : List Char) :
    lines text = cutLines text ∨ lines text = cutLines text ++ [[]] := by
  induction text with
  | nil => exact .inr rfl
  | cons c text ih =>
    rw [lines, cutLines]
    by_cases hc : c = '\n'
    · rw [if_pos hc, if_pos hc]
      exact ih.imp (congrArg ([c] :: ·)) (congrArg ([c] :: ·))
    · rw [if_neg hc, if_neg hc]
      cases hcut : cutLines text with
      | nil =>
        rw [hcut] at ih
        rw [ih.resolve_left (lines_ne_nil text)]
        exact .inl rfl
      | cons line later =>
        rw [hcut] at ih
        rcases ih with h | h
        · rw [h]
          exact .inl rfl
        · rw [h]
          exact .inr rfl

private theorem flatten_cutLines (text : List Char) : (cutLines text).flatten = text := by
  have hflatten := flatten_lines text
  rcases lines_eq_cutLines_or text with h | h
  · rwa [h] at hflatten
  · rwa [h, List.flatten_concat, List.append_nil] at hflatten

private theorem ne_nil_of_mem_dropLast_lines :
    ∀ line ∈ (lines text).dropLast, line ≠ [] := by
  intro line hm
  rcases lines_eq_cutLines_or text with h | h
  · rw [h] at hm
    exact ne_nil_of_mem_cutLines (List.dropLast_subset _ hm)
  · rw [h, List.dropLast_concat] at hm
    exact ne_nil_of_mem_cutLines hm

private theorem lastNewline?_of_not_mem (h : '\n' ∉ text) : lastNewline? text = none := by
  induction text with
  | nil => rfl
  | cons c text ih =>
    obtain ⟨hc, hm⟩ := not_or.mp (mt List.mem_cons.mpr h)
    rw [lastNewline?, ih hm]
    exact if_neg (Ne.symm hc)

private theorem lastNewline?_append_newline (text : List Char) {line : List Char}
    (h : '\n' ∉ line) : lastNewline? (text ++ '\n' :: line) = some (byteSize text) := by
  induction text with
  | nil =>
    rw [List.nil_append, lastNewline?, lastNewline?_of_not_mem h]
    rfl
  | cons c text ih =>
    rw [List.cons_append, lastNewline?, ih]
    rfl

private theorem elim_lastNewline? (h : byteSize text < Offset.bound) :
    (lastNewline? text).elim (some 0) (·.add? 1) =
      some (byteSize (text.rdropWhile (· ≠ '\n'))) := by
  rcases eq_append_lastLine_or text with hn | ⟨front, he⟩
  · rw [lastNewline?_of_not_mem hn, List.rdropWhile_eq_nil_iff.mpr (forall_ne_of_not_mem hn)]
    rfl
  · have hlast := not_mem_lastLine text
    generalize lastLine text = line at he hlast
    subst he
    have hsize : byteSize (front ++ ['\n']) = byteSize front + 1 := byteSize_append _ _
    have hfits : byteSize front + 1 < Offset.bound := by
      rw [List.append_cons, byteSize_append, hsize] at h
      exact Nat.lt_of_le_of_lt (Nat.le_add_right _ _) h
    rw [lastNewline?_append_newline front hlast, rdropWhile_append_newline front hlast, hsize]
    exact Offset.add?_of_lt hfits

namespace Line

private theorem pass?_of_lt (index : Nat) (hfits : start + byteSize list.flatten < Offset.bound)
    (hle : start ≤ target) (h : target < start + byteSize list.flatten) :
    ∃ line, pass? target index start list = some (.inl line) ∧
      ∀ later, locate? target (index + 1) start (list ++ later) = some line := by
  induction list generalizing index start with
  | nil => exact (Nat.not_lt_of_le hle h).elim
  | cons first list ih =>
    rw [List.flatten_cons, byteSize_append, ← Nat.add_assoc] at hfits h
    have hstop := Offset.add?_of_lt (Nat.lt_of_le_of_lt (Nat.le_add_right _ _) hfits)
    by_cases hlt : target < start + byteSize first
    · refine ⟨⟨index + 1, ⟨start, start + byteSize first⟩, first⟩, ?_, ?_⟩
      · simp [pass?, hstop, hlt]
      · intro later
        exact if_pos (.inl hlt)
    · obtain ⟨line, hpass, hlocate⟩ := ih (index + 1) hfits (Nat.le_of_not_lt hlt) h
      refine ⟨line, ?_, ?_⟩
      · simp [pass?, hstop, hlt, hpass]
      · intro later
        have hnext : ¬ (target < start + byteSize first ∨
            list ++ later = [] ∧ target = start + byteSize first) := by
          rintro (hlt' | ⟨hnil, -⟩)
          · exact hlt hlt'
          · rw [(List.append_eq_nil_iff.mp hnil).1] at h
            exact hlt h
        rw [List.cons_append, locate?, if_neg hnext]
        exact hlocate later

private theorem pass?_of_le (index : Nat) (hfits : start + byteSize list.flatten < Offset.bound)
    (h : start + byteSize list.flatten ≤ target) :
    pass? target index start list = some (.inr (start + byteSize list.flatten)) := by
  induction list generalizing index start with
  | nil => rfl
  | cons first list ih =>
    rw [List.flatten_cons, byteSize_append, ← Nat.add_assoc] at hfits h ⊢
    have hstop := Offset.add?_of_lt (Nat.lt_of_le_of_lt (Nat.le_add_right _ _) hfits)
    have hle : ¬ target < start + byteSize first :=
      Nat.not_lt_of_le (Nat.le_trans (Nat.le_add_right _ _) h)
    simp [pass?, hstop, hle, ih (index + 1) hfits h]

private theorem exists_last? (h : source.utf8ByteSize < Offset.bound) :
    ∃ line, last? source source.utf8ByteSize = some line ∧
      at? source source.utf8ByteSize = some line := by
  rw [← byteSize_toList] at h ⊢
  have hnil : source.toList = source.toList ++ [] := (List.append_nil _).symm
  refine ⟨_, ?_, at?_byteSize hnil⟩
  have hfirst : firstLine [] = [] := rfl
  simp only [last?, elim_lastNewline? h, ← byteSize_toList, slice?_lastLine hnil, hfirst,
    Option.bind_eq_bind, Option.bind_some, String.toList_ofList, List.append_nil]
  rfl

private theorem locate?_eq_none (h : start + byteSize list.flatten < target) :
    locate? target number start list = none := by
  induction list generalizing number start with
  | nil => rfl
  | cons first list ih =>
    rw [List.flatten_cons, byteSize_append, ← Nat.add_assoc] at h
    have hlt : start + byteSize first < target := Nat.lt_of_le_of_lt (Nat.le_add_right _ _) h
    have hnext : ¬ (target < start + byteSize first ∨
        list = [] ∧ target = start + byteSize first) := by
      omega
    rw [locate?, if_neg hnext]
    exact ih h

private theorem at?_eq_none (h : source.utf8ByteSize < target) : at? source target = none := by
  apply locate?_eq_none
  rwa [flatten_lines, byteSize_toList, Nat.zero_add]

/-- The search fails no check and finds the line at an offset, if there is one. -/
theorem search?_eq (h : source.utf8ByteSize < Offset.bound) (target : Nat) :
    search? source target = some (at? source target) := by
  have hsize : 0 + byteSize (cutLines source.toList).flatten = source.utf8ByteSize := by
    rw [flatten_cutLines, byteSize_toList, Nat.zero_add]
  rw [← hsize] at h
  rw [search?]
  by_cases hlt : target < source.utf8ByteSize
  · rw [← hsize] at hlt
    obtain ⟨line, hpass, hlocate⟩ := pass?_of_lt 0 h (Nat.zero_le _) hlt
    have hline : at? source target = some line := by
      rcases lines_eq_cutLines_or source.toList with he | he
      · rw [at?, he, ← List.append_nil (cutLines source.toList)]
        exact hlocate []
      · rw [at?, he]
        exact hlocate [[]]
    rw [hpass, hline]
    rfl
  · have hle := Nat.le_of_not_lt hlt
    rw [← hsize] at hle
    rw [pass?_of_le 0 h hle, hsize]
    rw [hsize] at h hle
    by_cases he : target = source.utf8ByteSize
    · subst he
      obtain ⟨line, hlast, hline⟩ := exists_last? h
      simp [hlast, hline]
    · rw [at?_eq_none (Nat.lt_of_le_of_ne hle (Ne.symm he))]
      simp [he]

def spans (start : Offset) : List (List Char) → List Span
  | [] => []
  | text :: later => ⟨start, start + byteSize text⟩ :: spans (start + byteSize text) later

private theorem chain_spans (start : Nat) (list : List (List Char)) :
    Span.Chain start (spans start list) (start + byteSize list.flatten) := by
  induction list generalizing start with
  | nil => rfl
  | cons first list ih =>
    rw [List.flatten_cons, byteSize_append, ← Nat.add_assoc]
    exact ⟨rfl, Nat.le_add_right _ _, ih _⟩

private theorem le_start_of_mem_spans {span : Span} (h : span ∈ spans start list) :
    start ≤ span.start := by
  induction list generalizing start with
  | nil => cases h
  | cons first list ih =>
    rcases List.mem_cons.mp h with rfl | h
    · exact Nat.le_refl _
    · exact Nat.le_trans (Nat.le_add_right _ _) (ih h)

private theorem ne_nil_of_dropLast_cons {first second : List Char}
    (h : ∀ line ∈ (first :: second :: list).dropLast, line ≠ []) :
    first ≠ [] ∧ ∀ line ∈ (second :: list).dropLast, line ≠ [] := by
  rwa [List.dropLast_cons_cons, List.forall_mem_cons] at h

/-- No two lines start at one offset. -/
theorem pairwise_spans (h : ∀ line ∈ list.dropLast, line ≠ []) :
    (spans start list).Pairwise fun earlier later => earlier.start < later.start := by
  induction list generalizing start with
  | nil => exact .nil
  | cons first list ih =>
    cases list with
    | nil => exact List.pairwise_singleton _ _
    | cons second list =>
      obtain ⟨hfirst, hlater⟩ := ne_nil_of_dropLast_cons h
      refine .cons ?_ (ih hlater)
      intro span hm
      exact Nat.lt_of_lt_of_le (Nat.lt_add_of_pos_right (byteSize_pos hfirst))
        (le_start_of_mem_spans hm)

private theorem span_mem_of_locate? {line : Line}
    (h : locate? target number start list = some line) : line.span ∈ spans start list := by
  induction list generalizing number start with
  | nil => cases h
  | cons first list ih =>
    rw [locate?] at h
    split at h
    · cases h
      exact List.mem_cons_self
    · exact List.mem_cons_of_mem _ (ih h)

private theorem exists_locate?_of_mem_spans {span : Span} (h : ∀ line ∈ list.dropLast, line ≠ [])
    (hm : span ∈ spans start list) :
    ∃ line, locate? span.start number start list = some line ∧ line.span = span := by
  induction list generalizing number start with
  | nil => cases hm
  | cons first list ih =>
    cases list with
    | nil =>
      rw [List.mem_singleton.mp hm]
      refine ⟨_, if_pos ?_, rfl⟩
      rcases Nat.eq_zero_or_pos (byteSize first) with hz | hpos
      · exact .inr ⟨rfl, by simp [hz]⟩
      · exact .inl (Nat.lt_add_of_pos_right hpos)
    | cons second list =>
      obtain ⟨hfirst, hlater⟩ := ne_nil_of_dropLast_cons h
      rcases List.mem_cons.mp hm with rfl | hm
      · exact ⟨_, if_pos (.inl (Nat.lt_add_of_pos_right (byteSize_pos hfirst))), rfl⟩
      · have hnext : ¬ (span.start < start + byteSize first ∨
            second :: list = [] ∧ span.start = start + byteSize first) := by
          rintro (hlt | ⟨hnil, -⟩)
          · exact Nat.not_lt_of_le (le_start_of_mem_spans hm) hlt
          · cases hnil
        rw [locate?, if_neg hnext]
        exact ih hlater hm

private theorem mem_spans_lines_iff {span : Span} : span ∈ spans 0 (lines source.toList) ↔
    ∃ target line, at? source target = some line ∧ line.span = span := by
  constructor
  · intro hm
    exact ⟨span.start, exists_locate?_of_mem_spans ne_nil_of_mem_dropLast_lines hm⟩
  · rintro ⟨target, line, hline, rfl⟩
    exact span_mem_of_locate? hline

private theorem exists_standsAt (h : target ≤ source.utf8ByteSize) :
    ∃ line, at? source target = some line ∧ line.StandsAt source target := by
  rw [← byteSize_toList] at h
  obtain ⟨before, more, hparts⟩ := exists_partsAt h
  have hsplit : before.rdropWhile (· ≠ '\n') ++ lastLine before = before :=
    List.rdropWhile_append_rtakeWhile
  have hline := at?_append hparts.text hparts.le hparts.reach
  refine ⟨_, hline, ?_⟩
  constructor
  case number => rw [hparts.countP_newlines]
  case start => exact hparts.isGreatest_start
  case stop =>
    rw [← byteSize_toList]
    exact hparts.isLeast_stop
  case text =>
    obtain ⟨rest, hrest⟩ := firstLine_prefix more
    have htext : source.toList = before.rdropWhile (· ≠ '\n') ++
        ((lastLine before ++ firstLine more) ++ rest) := by
      rw [List.append_assoc, hrest, ← List.append_assoc, hsplit, hparts.text]
    have hsize := congrArg byteSize hsplit
    rw [byteSize_append] at hsize
    have hslice := slice?_append htext
    rwa [byteSize_append, ← Nat.add_assoc, hsize] at hslice

private theorem at?_eq_none_iff : at? source target = none ↔ source.utf8ByteSize < target := by
  constructor
  · intro h
    by_contra hle
    obtain ⟨line, hline, -⟩ := exists_standsAt (Nat.le_of_not_lt hle)
    rw [h] at hline
    cases hline
  · exact at?_eq_none

private theorem standsAt_of_at? {line : Line} (h : at? source target = some line) :
    line.StandsAt source target := by
  have hle : target ≤ source.utf8ByteSize := by
    rw [← Nat.not_lt, ← at?_eq_none_iff, h]
    exact Option.some_ne_none line
  obtain ⟨other, hother, hstands⟩ := exists_standsAt hle
  rw [h] at hother
  obtain rfl := Option.some.inj hother
  exact hstands

end Line

/-- The line at an offset is settled by the newlines of the text, beyond whose end there is none. The
search through a text whose end is a word finds that line, the numbers of lines grow with the offsets,
and the lines stand one behind the other from the first byte to the last. -/
theorem line_at_offset (source : String) :
    (∀ target, Line.at? source target = none ↔ source.utf8ByteSize < target) ∧
    (∀ target line, Line.at? source target = some line → line.StandsAt source target) ∧
    (source.utf8ByteSize < Offset.bound →
      ∀ target, Line.search? source target = some (Line.at? source target)) ∧
    (∀ target further line other, target ≤ further → Line.at? source target = some line →
      Line.at? source further = some other → line.number ≤ other.number) ∧
    ∃ spans : List Span, Span.Chain 0 spans source.utf8ByteSize ∧
      (spans.Pairwise fun earlier later => earlier.start < later.start) ∧
      ∀ span, span ∈ spans ↔ ∃ target line, Line.at? source target = some line ∧ line.span = span := by
  refine ⟨fun _ => Line.at?_eq_none_iff, fun _ _ => Line.standsAt_of_at?, Line.search?_eq, ?_, ?_⟩
  · intro target further line other hle hline hother
    rw [(Line.standsAt_of_at? hline).number, (Line.standsAt_of_at? hother).number]
    refine Nat.add_le_add_right (List.countP_mono_left ?_) 1
    intro newline _ hlt
    simp only [decide_eq_true_eq] at hlt ⊢
    exact Nat.lt_of_lt_of_le hlt hle
  · have hchain := Line.chain_spans 0 (lines source.toList)
    rw [flatten_lines, byteSize_toList, Nat.zero_add] at hchain
    exact ⟨_, hchain, Line.pairwise_spans ne_nil_of_mem_dropLast_lines,
      fun _ => Line.mem_spans_lines_iff⟩

theorem line_at_offset_inside :
    "a\né€\n".utf8ByteSize < Offset.bound ∧
    Line.at? "a\né€\n" 5 = some ⟨2, ⟨2, 8⟩, ['é', '€', '\n']⟩ ∧
    Line.StandsAt "a\né€\n" 5 ⟨2, ⟨2, 8⟩, ['é', '€', '\n']⟩ ∧
    Line.search? "a\né€\n" 8 = some (some ⟨3, ⟨8, 8⟩, []⟩) := by
  obtain ⟨-, hstands, hsearch, -⟩ := line_at_offset "a\né€\n"
  have hfits : "a\né€\n".utf8ByteSize < Offset.bound := by decide
  have hline : Line.at? "a\né€\n" 5 = some ⟨2, ⟨2, 8⟩, ['é', '€', '\n']⟩ := by decide +kernel
  exact ⟨hfits, hline, hstands 5 _ hline, (hsearch hfits 8).trans (by decide +kernel)⟩

end ExprScan
