import ExprScan.Proofs.Text.Slice
import ExprScan.Text.Line
import Mathlib.Data.List.DropRight

/-! The lines of a text that is put together from others, and the line at a place in a text: it
starts behind the last newline in front of that place and ends with the first one from there on. -/
namespace ExprScan

variable {line before more : List Char}

theorem lines_ne_nil (text : List Char) : lines text ≠ [] := by
  induction text with
  | nil => simp [lines]
  | cons c text ih =>
    rw [lines]
    split
    · simp
    · simpa [List.modifyHead_eq_nil_iff] using ih

/-- The lines put together are the text. -/
theorem flatten_lines (text : List Char) : (lines text).flatten = text := by
  induction text with
  | nil => rfl
  | cons c text ih =>
    rw [lines]
    split
    · rw [List.flatten_cons, ih]
      rfl
    · cases h : lines text with
      | nil => exact (lines_ne_nil text h).elim
      | cons line later =>
        rw [h] at ih
        rw [List.modifyHead_cons, List.flatten_cons, List.cons_append, ← List.flatten_cons, ih]

/-- Behind a newline the lines are those of the text from there on. -/
theorem lines_append_newline (text more : List Char) : ∃ earlier,
    lines (text ++ '\n' :: more) = earlier ++ lines more ∧
      earlier.flatten = text ++ ['\n'] ∧ earlier.length = text.count '\n' + 1 := by
  induction text with
  | nil => exact ⟨[['\n']], rfl, rfl, rfl⟩
  | cons c text ih =>
    obtain ⟨earlier, h, hflatten, hlength⟩ := ih
    rw [List.cons_append, lines, h]
    by_cases hc : c = '\n'
    · subst hc
      refine ⟨['\n'] :: earlier, rfl, ?_, ?_⟩
      · rw [List.flatten_cons, hflatten]
        rfl
      · rw [List.length_cons, hlength, List.count_cons_self]
    · obtain ⟨first, others, rfl⟩ := List.exists_cons_of_length_eq_add_one hlength
      refine ⟨(c :: first) :: others, ?_, ?_, ?_⟩
      · rw [if_neg hc]
        rfl
      · rw [List.flatten_cons, List.cons_append, ← List.flatten_cons, hflatten]
        rfl
      · rw [List.count_cons_of_ne hc, ← hlength]
        rfl

private theorem lines_append_of_not_mem (h : '\n' ∉ line) (more : List Char) :
    lines (line ++ more) = (lines more).modifyHead (line ++ ·) := by
  induction line with
  | nil => exact (congrFun List.modifyHead_id _).symm
  | cons c line ih =>
    obtain ⟨hc, hm⟩ := not_or.mp (mt List.mem_cons.mpr h)
    rw [List.cons_append, lines, if_neg (Ne.symm hc), ih hm, List.modifyHead_modifyHead]
    rfl

theorem lines_of_not_mem (h : '\n' ∉ line) : lines (line ++ ['\n']) = [line ++ ['\n'], []] :=
  lines_append_of_not_mem h ['\n']

theorem EndsWithLine.suffix {text line : String} (h : EndsWithLine text line) :
    line.toList ++ ['\n'] <:+ text.toList := by
  obtain ⟨front, h⟩ := h
  refine ⟨front.flatten, ?_⟩
  rw [← flatten_lines text.toList, ← h]
  simp

def lastLine (text : List Char) : List Char := text.rtakeWhile (· ≠ '\n')

def firstLine (text : List Char) : List Char :=
  text.takeWhile (· ≠ '\n') ++ (text.dropWhile (· ≠ '\n')).take 1

theorem firstLine_prefix (text : List Char) : firstLine text <+: text := by
  have htake : firstLine text <+: text.takeWhile (· ≠ '\n') ++ text.dropWhile (· ≠ '\n') :=
    (List.prefix_append_right_inj _).mpr (List.take_prefix _ _)
  rwa [List.takeWhile_append_dropWhile] at htake

theorem forall_ne_of_not_mem {c : Char} (h : c ∉ line) : ∀ d ∈ line, decide (d ≠ c) = true := by
  intro d hd
  simp only [decide_eq_true_eq]
  rintro rfl
  exact h hd

theorem firstLine_append_of_not_mem (h : '\n' ∉ line) (more : List Char) :
    firstLine (line ++ more) = line ++ firstLine more := by
  rw [firstLine, List.takeWhile_append_of_pos (forall_ne_of_not_mem h),
    List.dropWhile_append_of_pos (forall_ne_of_not_mem h), List.append_assoc, firstLine]

theorem firstLine_of_not_mem (h : '\n' ∉ line) : firstLine line = line := by
  have hfirst := firstLine_append_of_not_mem h []
  have hnil : firstLine [] = [] := rfl
  rwa [hnil, List.append_nil] at hfirst

private theorem lastLine_of_not_mem (h : '\n' ∉ line) : lastLine line = line :=
  List.rtakeWhile_eq_self_iff.mpr (forall_ne_of_not_mem h)

theorem lastLine_append_newline (text : List Char) (h : '\n' ∉ line) :
    lastLine (text ++ '\n' :: line) = line := by
  have hline : ∀ c ∈ line.reverse, decide (c ≠ '\n') = true := by
    intro c hc
    exact forall_ne_of_not_mem h c (List.mem_reverse.mp hc)
  rw [lastLine, List.rtakeWhile, List.reverse_append, List.reverse_cons, List.append_assoc,
    List.takeWhile_append_of_pos hline]
  simp

theorem rdropWhile_append_newline (text : List Char) (h : '\n' ∉ line) :
    (text ++ '\n' :: line).rdropWhile (· ≠ '\n') = text ++ ['\n'] := by
  have hsplit : (text ++ '\n' :: line).rdropWhile (· ≠ '\n') ++ lastLine (text ++ '\n' :: line) =
      text ++ '\n' :: line :=
    List.rdropWhile_append_rtakeWhile
  rw [lastLine_append_newline text h] at hsplit
  rw [← List.append_left_inj line, hsplit, List.append_assoc]
  rfl

theorem not_mem_lastLine (text : List Char) : '\n' ∉ lastLine text := by
  intro hm
  have := List.mem_rtakeWhile_imp hm
  simp at this

/-- A text is one line, or its last line stands behind a newline. -/
theorem eq_append_lastLine_or (text : List Char) :
    '\n' ∉ text ∨ ∃ front, text = front ++ '\n' :: lastLine text := by
  induction text with
  | nil => exact .inl List.not_mem_nil
  | cons c text ih =>
    rcases ih with h | ⟨front, he⟩
    · by_cases hc : c = '\n'
      · subst hc
        refine .inr ⟨[], ?_⟩
        rw [← List.nil_append ('\n' :: text), lastLine_append_newline [] h]
      · exact .inl (by simp [h, Ne.symm hc])
    · refine .inr ⟨c :: front, ?_⟩
      have hlast := lastLine_append_newline (c :: front) (not_mem_lastLine text)
      rw [List.cons_append, ← he] at hlast
      rw [hlast, List.cons_append, ← he]

/-- A text is one line, or its first line ends with a newline. -/
theorem eq_firstLine_append_or (text : List Char) :
    '\n' ∉ text ∨ ∃ line rest, text = line ++ '\n' :: rest ∧ '\n' ∉ line := by
  by_cases h : '\n' ∈ text
  · exact .inr (List.eq_append_cons_of_mem h)
  · exact .inl h

private theorem lines_eq_firstLine_cons (text : List Char) :
    ∃ later, lines text = firstLine text :: later ∧ (text = [] → later = []) := by
  rcases eq_firstLine_append_or text with h | ⟨line, rest, rfl, h⟩
  · have hlines := lines_append_of_not_mem h []
    rw [List.append_nil] at hlines
    refine ⟨[], ?_, fun _ => rfl⟩
    rw [hlines, firstLine_of_not_mem h, lines, List.modifyHead_cons, List.append_nil]
  · refine ⟨lines rest, ?_, by simp⟩
    rw [firstLine_append_of_not_mem h, lines_append_of_not_mem h]
    rfl

/-- Where two texts meet, the last line of the first and the first line of the second are one. -/
private theorem lines_append (before more : List Char) : ∃ earlier later,
    lines (before ++ more) = earlier ++ (lastLine before ++ firstLine more) :: later ∧
      earlier.flatten = before.rdropWhile (· ≠ '\n') ∧ earlier.length = before.count '\n' ∧
      (more = [] → later = []) := by
  obtain ⟨later, hmore, hlater⟩ := lines_eq_firstLine_cons more
  rcases eq_append_lastLine_or before with h | ⟨front, he⟩
  · refine ⟨[], later, ?_, ?_, ?_, hlater⟩
    · rw [lines_append_of_not_mem h, hmore, lastLine_of_not_mem h]
      rfl
    · exact (List.rdropWhile_eq_nil_iff.mpr (forall_ne_of_not_mem h)).symm
    · rw [List.count_eq_zero.mpr h]
      rfl
  · have hlast := not_mem_lastLine before
    have hsplit : before.rdropWhile (· ≠ '\n') ++ lastLine before = before :=
      List.rdropWhile_append_rtakeWhile
    obtain ⟨earlier, hlines, hflatten, hlength⟩ :=
      lines_append_newline front (lastLine before ++ more)
    refine ⟨earlier, later, ?_, ?_, ?_, hlater⟩
    · conv => lhs; rw [he]
      rw [List.append_assoc, List.cons_append, hlines, lines_append_of_not_mem hlast, hmore]
      rfl
    · rw [← List.append_left_inj (lastLine before), hflatten, hsplit, List.append_assoc]
      exact he.symm
    · conv => rhs; rw [he]
      rw [hlength, List.count_append, List.count_cons_self, List.count_eq_zero.mpr hlast]

namespace Line

private theorem locate?_append {earlier later : List (List Char)} {text : List Char}
    {target number start : Nat} (h : start + byteSize earlier.flatten ≤ target) :
    locate? target number start (earlier ++ text :: later) =
      locate? target (number + earlier.length) (start + byteSize earlier.flatten)
        (text :: later) := by
  induction earlier generalizing number start with
  | nil => rfl
  | cons first earlier ih =>
    rw [List.flatten_cons, byteSize_append] at h
    have hlt : ¬ target < start + byteSize first := by omega
    rw [List.cons_append, locate?, if_neg (by simp [hlt]), ih (by dsimp only; omega)]
    simp [Nat.add_assoc, Nat.add_comm 1]

/-- The line at an offset has one more number than there are newlines in front of it. -/
theorem at?_append {source : String} {target : Offset} (h : source.toList = before ++ more)
    (hle : byteSize before ≤ target)
    (hlt : target < byteSize before + byteSize (firstLine more) ∨
      more = [] ∧ target = byteSize before) :
    at? source target = some ⟨before.count '\n' + 1,
      ⟨byteSize (before.rdropWhile (· ≠ '\n')), byteSize before + byteSize (firstLine more)⟩,
      lastLine before ++ firstLine more⟩ := by
  have hsplit : before.rdropWhile (· ≠ '\n') ++ lastLine before = before :=
    List.rdropWhile_append_rtakeWhile
  have hsize := congrArg byteSize hsplit
  rw [byteSize_append] at hsize
  obtain ⟨earlier, later, hlines, hflatten, hlength, hlater⟩ := lines_append before more
  rw [at?, h, hlines, locate?_append (by rw [hflatten]; omega), locate?, hflatten, hlength]
  have hstop : 0 + byteSize (before.rdropWhile (· ≠ '\n')) +
      byteSize (lastLine before ++ firstLine more) = byteSize before + byteSize (firstLine more) := by
    rw [byteSize_append]
    omega
  dsimp only
  rw [hstop, Nat.zero_add, Nat.add_comm 1, if_pos]
  rcases hlt with hlt | ⟨hmore, rfl⟩
  · exact .inl hlt
  · subst hmore
    exact .inr ⟨hlater rfl, rfl⟩

end Line

variable {source : String}

theorem utf8Size_le_byteSize_firstLine (c : Char) (rest : List Char) :
    c.utf8Size ≤ byteSize (firstLine (c :: rest)) := by
  by_cases hc : c = '\n'
  · subst hc
    exact Nat.le_refl 1
  · have hline : firstLine (c :: rest) = c :: firstLine rest := by simp [firstLine, hc]
    rw [hline, byteSize_cons]
    exact Nat.le_add_right _ _

theorem byteSize_firstLine_pos (h : more ≠ []) : 0 < byteSize (firstLine more) := by
  obtain ⟨c, rest, rfl⟩ := List.exists_cons_of_ne_nil h
  exact Nat.lt_of_lt_of_le c.utf8Size_pos (utf8Size_le_byteSize_firstLine c rest)

theorem at?_byteSize (h : source.toList = before ++ more) : Line.at? source (byteSize before) =
    some ⟨before.count '\n' + 1,
      ⟨byteSize (before.rdropWhile (· ≠ '\n')), byteSize before + byteSize (firstLine more)⟩,
      lastLine before ++ firstLine more⟩ := by
  apply Line.at?_append h (Nat.le_refl _)
  by_cases hn : more = []
  · exact .inr ⟨hn, rfl⟩
  · exact .inl (Nat.lt_add_of_pos_right (byteSize_firstLine_pos hn))

theorem slice?_lastLine (h : source.toList = before ++ more) :
    Span.slice? ⟨byteSize (before.rdropWhile (· ≠ '\n')), byteSize before⟩ source =
      some (String.ofList (lastLine before)) := by
  have hsplit : before.rdropWhile (· ≠ '\n') ++ lastLine before = before :=
    List.rdropWhile_append_rtakeWhile
  have hslice : source.toList =
      before.rdropWhile (· ≠ '\n') ++ (lastLine before ++ more) := by
    rw [← List.append_assoc, hsplit, h]
  have hsize := congrArg byteSize hsplit
  rw [byteSize_append] at hsize
  rw [← slice?_append hslice, hsize]

end ExprScan
