import ExprScan.Proofs.Text.Lines
import ExprScan.Text.Return

/-! Carriage returns in front of newlines lengthen the lines of a text but change nothing else about
them. -/
namespace ExprScan

variable {text line : List Char} {p : Char → Bool}

theorem withReturns_of_not_mem (h : '\n' ∉ text) : withReturns text = text := by
  induction text with
  | nil => rfl
  | cons c text ih =>
    obtain ⟨hc, hm⟩ := not_or.mp (mt List.mem_cons.mpr h)
    rw [withReturns_cons_of_ne (Ne.symm hc), ih hm]

/-- Taking carriage returns away undoes putting them in, if there were none before. -/
theorem withoutReturns_withReturns (h : '\r' ∉ text) :
    withoutReturns (withReturns text) = text := by
  induction text with
  | nil => rfl
  | cons c text ih =>
    obtain ⟨hc, hm⟩ := not_or.mp (mt List.mem_cons.mpr h)
    by_cases hn : c = '\n'
    · subst hn
      exact congrArg ('\n' :: ·) (ih hm)
    · rw [withReturns_cons_of_ne hn, withoutReturns,
        List.filter_cons_of_pos (by simpa using Ne.symm hc)]
      exact congrArg (c :: ·) (ih hm)

/-- What ends at either character of a line break ends at the same place as before. -/
theorem takeWhile_withReturns (hn : p '\n' = false) (hr : p '\r' = false) (text : List Char) :
    (withReturns text).takeWhile p = text.takeWhile p := by
  induction text with
  | nil => rfl
  | cons c text ih =>
    by_cases hc : c = '\n'
    · subst hc
      simp [hn, hr]
    · rw [withReturns_cons_of_ne hc, List.takeWhile_cons, List.takeWhile_cons, ih]

theorem dropWhile_withReturns (hn : p '\n' = false) (hr : p '\r' = false) (text : List Char) :
    (withReturns text).dropWhile p = withReturns (text.dropWhile p) := by
  induction text with
  | nil => rfl
  | cons c text ih =>
    by_cases hc : c = '\n'
    · subst hc
      simp [hn, hr]
    · rw [withReturns_cons_of_ne hc, List.dropWhile_cons, List.dropWhile_cons, ih]
      split
      · rfl
      · rw [withReturns_cons_of_ne hc]

theorem withReturns_takeWhile (hn : p '\n' = false) (text : List Char) :
    withReturns (text.takeWhile p) = text.takeWhile p := by
  apply withReturns_of_not_mem
  intro hm
  have hp := List.mem_takeWhile_imp hm
  rw [hn] at hp
  cases hp

theorem count_newline_withReturns (text : List Char) :
    (withReturns text).count '\n' = text.count '\n' := by
  induction text with
  | nil => rfl
  | cons c text ih =>
    by_cases hc : c = '\n'
    · subst hc
      rw [withReturns_newline_cons, List.count_cons_of_ne (by decide), List.count_cons_self,
        List.count_cons_self, ih]
    · rw [withReturns_cons_of_ne hc, List.count_cons_of_ne hc, List.count_cons_of_ne hc, ih]

theorem lastLine_withReturns (text : List Char) : lastLine (withReturns text) = lastLine text := by
  rcases eq_append_lastLine_or text with h | ⟨front, he⟩
  · rw [withReturns_of_not_mem h]
  · have hlast := not_mem_lastLine text
    conv => lhs; rw [he]
    rw [withReturns_append, withReturns_newline_cons, withReturns_of_not_mem hlast,
      List.append_cons, lastLine_append_newline _ hlast]

end ExprScan
