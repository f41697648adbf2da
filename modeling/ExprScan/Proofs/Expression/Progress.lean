import ExprScan.Expression.Progress
import ExprScan.Proofs.Expression.Extent
import ExprScan.Proofs.Expression.Plain

/-! Readings go forward and come to an end. Each of them stops where the automaton does, so the tokens
between its ends are those that the automaton passes, and one more if that is rejected. -/
namespace ExprScan

variable {tokens read more : List Token} {token : Token} {start cursor between after place : Cursor}
  {call callee : Call}

namespace Cursor

private theorem Reads.trans (h : start.Reads read between) (h' : between.Reads more after) :
    start.Reads (read ++ more) after := by
  constructor
  · rw [h.unread, h'.unread, List.append_assoc]
  · rw [h'.position, h.position, List.length_append, Nat.add_assoc]

private theorem Reads.within (h : start.Reads read after) (hw : start.Within tokens) :
    after.Within tokens ∧ start.position ≤ after.position := by
  refine ⟨(hw.forward h).1, ?_⟩
  rw [h.position]
  exact Nat.le_add_right _ _

private theorem settle_settle (cursor : Cursor) : cursor.settle.settle = cursor.settle := by
  have hhead := List.head?_dropWhile_not Token.isComment cursor.unread
  cases hd : cursor.unread.dropWhile Token.isComment with
  | nil => simp [settle, hd]
  | cons token later =>
    rw [hd] at hhead
    have hc : token.isComment = false := by simpa using hhead
    simp [settle, hd, hc]

private theorem next?_settle (cursor : Cursor) : cursor.settle.next? = cursor.next? := by
  rw [next?, settle_settle]
  rfl

end Cursor

namespace Automaton

variable {automaton next : Automaton} {verdict : Verdict} {expected last : Expected}

private theorem Passes.reads (h : Passes automaton start next after) :
    ∃ read, start.Reads read after ∧ automaton.pass? read = some next := by
  obtain ⟨read, hunread, hposition, hpass⟩ := h
  exact ⟨read, ⟨hunread, hposition⟩, hpass⟩

private theorem Halts.reads (h : Halts automaton start verdict after) :
    ∃ read, start.Reads read after := by
  cases h with
  | accepted passes =>
    obtain ⟨read, hread, -⟩ := passes.reads
    exact ⟨read, hread⟩
  | refused passes found =>
    obtain ⟨read, hread, -⟩ := passes.reads
    obtain ⟨comments, hlast, -⟩ := Cursor.reads_of_next? found
    exact ⟨_, hread.trans hlast⟩
  | ended passes =>
    obtain ⟨read, hread, -⟩ := passes.reads
    exact ⟨read, hread⟩

private theorem opened_of_foldlM (h : tokens.foldlM step? automaton = some next)
    (ho : automaton.opened) : next.opened := by
  induction tokens generalizing automaton with
  | nil =>
    cases h
    exact ho
  | cons token later ih =>
    rw [List.foldlM_cons] at h
    obtain ⟨between, hstep, hlater⟩ := Option.bind_eq_some_iff.mp h
    exact ih hlater (opened_of_step? hstep ho)

private theorem expected_ne_of_step? (h : step? ⟨expected, false⟩ token = some ⟨last, false⟩) :
    last ≠ expected := by
  rw [step?] at h
  split at h
  · split at h
    · cases h
      simp_all
    · split at h <;> simp at h
  · split at h
    · cases h
      simp_all
    · cases h

private theorem even_length_iff (h : tokens.foldlM step? ⟨expected, false⟩ = some ⟨last, false⟩) :
    Even tokens.length ↔ last = expected := by
  induction tokens generalizing expected with
  | nil =>
    cases h
    simp
  | cons token later ih =>
    rw [List.foldlM_cons] at h
    obtain ⟨⟨other, opened⟩, hstep, hlater⟩ := Option.bind_eq_some_iff.mp h
    -- what this token has opened would be open at the end as well
    have hclosed : opened = false := by
      by_contra ho
      have hopened := opened_of_foldlM hlater (by simpa using ho)
      cases hopened
    subst hclosed
    have hother := expected_ne_of_step? hstep
    rw [List.length_cons, Nat.even_add_one, ih hlater]
    cases other <;> cases expected <;> cases last <;> simp at hother ⊢

/-- What is accepted where no parenthesis has been opened is an odd number of tokens. -/
private theorem Halts.odd (h : Halts ⟨.term, false⟩ start .accepted after) :
    ∃ read, start.Reads read after ∧ Odd (read.filter (!·.isComment)).length := by
  cases h with
  | accepted passes =>
    obtain ⟨read, hread, hpass⟩ := passes.reads
    refine ⟨read, hread, ?_⟩
    rw [← Nat.not_even_iff_odd, even_length_iff hpass]
    simp

private theorem Halts.lt_position (h : Halts ⟨.term, false⟩ start verdict after)
    (hv : ∀ failure, verdict = .rejected failure → failure.reason ≠ .unexpectedEnd) :
    start.position < after.position := by
  cases h with
  | accepted passes =>
    obtain ⟨read, hread, half, hodd⟩ := Halts.odd (.accepted passes)
    have hle := List.length_filter_le (!·.isComment) read
    rw [hread.position]
    omega
  | refused passes found =>
    obtain ⟨read, hread, -⟩ := passes.reads
    obtain ⟨comments, hlast, -⟩ := Cursor.reads_of_next? found
    rw [hlast.position, hread.position, List.length_append, List.length_singleton]
    omega
  | ended _ _ leave => exact (hv _ rfl (reason_of_leave leave)).elim

end Automaton

namespace Reading

private theorem exists_operand_of_term (h : (term start).verdict = .accepted) :
    ∃ token, token.kind.isOperand ∧ start.next? = some (token, (term start).cursor) := by
  cases hn : start.next? with
  | none =>
    rw [term_of_none hn] at h
    cases h
  | some found =>
    obtain ⟨token, after⟩ := found
    by_cases ho : token.kind.isOperand
    · rw [term_of_operand hn ho]
      exact ⟨token, ho, rfl⟩
    by_cases hp : token.is .operator "("
    · -- an expression ends in front of no operator, so the parenthesis behind it is missing
      obtain ⟨failure, hv, -⟩ := halts_inside (halts.2.1 after) (simulated.2.1 after).2
      rw [term_of_open hn ho hp, follow, hv] at h
      cases h
    · rw [term_of_other hn ho hp] at h
      cases h

/-- An accepted expression has an odd number of tokens, and comments do not count. -/
theorem odd_of_expression (h : (expression start).verdict = .accepted)
    (hp : (expression start).LeavesAt place) :
    ∃ read, start.Reads read place ∧ Odd (read.filter (!·.isComment)).length := by
  have hh := halts.2.1 start false
  rw [h] at hh
  obtain ⟨read, hread, hodd⟩ := hh.odd
  rcases hp with rfl | rfl
  · exact ⟨read, hread, hodd⟩
  · obtain ⟨comments, hcomments, hnone⟩ := Cursor.reads_settle (expression start).cursor
    refine ⟨_, hread.trans hcomments, ?_⟩
    rw [List.filter_append, hnone, List.append_nil]
    exact hodd

private theorem kind_ne_operator_of_expression (h : (expression start).verdict = .accepted)
    (hp : (expression start).LeavesAt place) (hn : place.next? = some (token, after)) :
    token.kind ≠ .operator := by
  have hsettled := (simulated.2.1 start).2 h
  rcases hp with rfl | rfl
  · exact Cursor.kind_ne_of_accept?_none hsettled hn
  · rw [Cursor.next?_settle] at hn
    exact Cursor.kind_ne_of_accept?_none hsettled hn

end Reading

namespace Call

private theorem halts (call : Call) : ∃ automaton : Automaton,
    automaton.Halts call.start call.reading.verdict call.reading.cursor := by
  cases call with
  | term start => exact ⟨_, Reading.halts.1 start false⟩
  | expression start => exact ⟨_, Reading.halts.2.1 start false⟩
  | operations start => exact ⟨_, Reading.halts.2.2 start false⟩

private theorem reads_cursor (call : Call) : ∃ read, call.start.Reads read call.reading.cursor := by
  obtain ⟨automaton, hh⟩ := call.halts
  exact hh.reads

private theorem reads_of_leavesAt (h : call.reading.LeavesAt place) :
    ∃ read, call.start.Reads read place := by
  obtain ⟨read, hread⟩ := call.reads_cursor
  rcases h with rfl | rfl
  · exact ⟨read, hread⟩
  · obtain ⟨comments, hcomments, -⟩ := Cursor.reads_settle call.reading.cursor
    exact ⟨_, hread.trans hcomments⟩

private theorem MadeBy.reads (h : callee.MadeBy call) :
    ∃ read, call.start.Reads read callee.start := by
  cases h with
  | first => exact ⟨[], rfl, rfl⟩
  | rest => exact (Call.term _).reads_cursor
  | inside found =>
    obtain ⟨comments, hread, -⟩ := Cursor.reads_of_next? found
    exact ⟨_, hread⟩
  | operand found =>
    obtain ⟨comments, hread, -⟩ := Cursor.reads_of_next? (Cursor.next?_of_accept? found).1
    exact ⟨_, hread⟩
  | again found =>
    obtain ⟨comments, hread, -⟩ := Cursor.reads_of_next? (Cursor.next?_of_accept? found).1
    obtain ⟨read, hterm⟩ := (Call.term _).reads_cursor
    exact ⟨_, hread.trans hterm⟩

/-- What a reading has in front of it. Among readings from the same place, an expression has more in
front of it than the operations behind its first term, and these more than a term. -/
def size : Call → Nat
  | .term start => 3 * start.unread.length
  | .operations start => 3 * start.unread.length + 1
  | .expression start => 3 * start.unread.length + 2

private theorem MadeBy.size_lt (h : callee.MadeBy call) : callee.size < call.size := by
  cases h with
  | first => simp [size]
  | @rest start _ =>
    have hle := (Reading.term start).forward
    simp only [size]
    omega
  | inside found =>
    have hlt := Cursor.length_lt_of_next? found
    simp only [size]
    omega
  | operand found =>
    have hlt := Cursor.length_lt_of_next? (Cursor.next?_of_accept? found).1
    simp only [size]
    omega
  | @again start after _ found _ =>
    have hlt := Cursor.length_lt_of_next? (Cursor.next?_of_accept? found).1
    have hle := (Reading.term after).forward
    simp only [size]
    omega

/-- No reading makes others without end. -/
theorem wellFounded_madeBy : WellFounded MadeBy := by
  have hsub : Subrelation MadeBy (InvImage (· < ·) size) := by
    intro callee call h
    exact h.size_lt
  exact hsub.wf (InvImage.wf size Nat.lt_wfRel.wf)

end Call

/-- Readings come to an end, go forward only, and stay within the tokens, those among them that are
made in the course of others. A term goes on by a token at least, unless the end comes too soon.
An accepted term is one token, an operand, and the comments in front of it. An accepted expression
is an odd number of tokens apart from comments, and no operator follows it. -/
theorem reading_progress (tokens : List Token) :
    WellFounded Call.MadeBy ∧
    (∀ call callee : Call, callee.MadeBy call → call.start.Within tokens →
      callee.start.Within tokens ∧ call.start.position ≤ callee.start.position) ∧
    (∀ (call : Call) (place : Cursor), call.reading.LeavesAt place → call.start.Within tokens →
      place.Within tokens ∧ call.start.position ≤ place.position) ∧
    (∀ start, (∀ failure, (Reading.term start).verdict = .rejected failure →
        failure.reason ≠ .unexpectedEnd) →
      start.position + 1 ≤ (Reading.term start).cursor.position) ∧
    (∀ start, (Reading.term start).verdict = .accepted →
      ∃ read, start.Reads read (Reading.term start).cursor ∧
        (∃ token, read.getLast? = some token ∧ token.kind.isOperand) ∧
        (read.filter (!·.isComment)).length = 1) ∧
    (∀ start place, (Reading.expression start).verdict = .accepted →
      (Reading.expression start).LeavesAt place →
      (∃ read, start.Reads read place ∧ Odd (read.filter (!·.isComment)).length) ∧
        ∀ token after, place.next? = some (token, after) → token.kind ≠ .operator) := by
  refine ⟨Call.wellFounded_madeBy, ?_, ?_, ?_, ?_, ?_⟩
  · intro call callee hm hw
    obtain ⟨read, hread⟩ := hm.reads
    exact hread.within hw
  · intro call place hp hw
    obtain ⟨read, hread⟩ := Call.reads_of_leavesAt hp
    exact hread.within hw
  · intro start hv
    exact (Reading.halts.1 start false).lt_position hv
  · intro start hv
    obtain ⟨token, ho, hn⟩ := Reading.exists_operand_of_term hv
    obtain ⟨comments, hread, hfilter⟩ := Cursor.reads_of_next? hn
    refine ⟨_, hread, ⟨token, List.getLast?_concat, ho⟩, ?_⟩
    rw [hfilter]
    rfl
  · intro start place hv hp
    refine ⟨Reading.odd_of_expression hv hp, ?_⟩
    intro token after hn
    exact Reading.kind_ne_operator_of_expression hv hp hn

/-- A term that is refused, and an expression in the middle of some tokens. The expression is left
behind the comment that follows it, in front of the last token. -/
theorem reading_progress_comments :
    (Cursor.start [⟨.operator, "*"⟩, ⟨.int, "2"⟩]).position + 1 ≤
      (Reading.term (Cursor.start [⟨.operator, "*"⟩, ⟨.int, "2"⟩])).cursor.position ∧
    (∃ read, Cursor.Reads ⟨[⟨.identifier, "x"⟩, ⟨.comment, "// c"⟩, ⟨.int, "2"⟩], 1⟩ read
        (Reading.term ⟨[⟨.identifier, "x"⟩, ⟨.comment, "// c"⟩, ⟨.int, "2"⟩], 1⟩).cursor ∧
      (∃ token, read.getLast? = some token ∧ token.kind.isOperand) ∧
      (read.filter (!·.isComment)).length = 1) ∧
    (∃ read, Cursor.Reads ⟨[⟨.identifier, "x"⟩, ⟨.comment, "// c"⟩, ⟨.int, "2"⟩], 1⟩ read
        ⟨[⟨.int, "2"⟩], 3⟩ ∧ Odd (read.filter (!·.isComment)).length) ∧
    Kind.int ≠ .operator ∧
    Cursor.Within [⟨.operator, "*"⟩, ⟨.identifier, "x"⟩, ⟨.comment, "// c"⟩, ⟨.int, "2"⟩]
      ⟨[⟨.identifier, "x"⟩, ⟨.comment, "// c"⟩, ⟨.int, "2"⟩], 1⟩ ∧
    Cursor.Within [⟨.operator, "*"⟩, ⟨.identifier, "x"⟩, ⟨.comment, "// c"⟩, ⟨.int, "2"⟩]
      ⟨[⟨.int, "2"⟩], 3⟩ := by
  obtain ⟨-, hmade, hleft, hadvance, hterm, hexpression⟩ := reading_progress
    [⟨.operator, "*"⟩, ⟨.identifier, "x"⟩, ⟨.comment, "// c"⟩, ⟨.int, "2"⟩]
  have hleaves : (Call.expression
      ⟨[⟨.identifier, "x"⟩, ⟨.comment, "// c"⟩, ⟨.int, "2"⟩], 1⟩).reading.LeavesAt
        ⟨[⟨.int, "2"⟩], 3⟩ := .inr (by cbv)
  obtain ⟨hodd, hnext⟩ := hexpression _ _ (by cbv) hleaves
  refine ⟨?_, hterm _ (by cbv), hodd, hnext ⟨.int, "2"⟩ ⟨[], 4⟩ rfl, ?_, ?_⟩
  · apply hadvance
    intro failure hv
    have hrefused : (Reading.term (Cursor.start [⟨.operator, "*"⟩, ⟨.int, "2"⟩])).verdict =
        .rejected ⟨.term, .unexpectedToken ⟨.operator, "*"⟩⟩ := by cbv
    rw [hrefused] at hv
    cases hv
    simp
  · exact (hmade _ _ .first ⟨rfl, by decide⟩).1
  · exact (hleft _ _ hleaves ⟨rfl, by decide⟩).1

end ExprScan
