import ExprScan.Expression.Automaton
import ExprScan.Proofs.Expression.Reading

/-! The automaton without a stack gives the verdict of the recursive reading. A reading that has
opened a parenthesis never gets out of it: an expression ends in front of no operator, and the
closing parenthesis is one. -/
namespace ExprScan

variable {start after : Cursor} {token : Token} {later : List Token}

namespace Automaton

variable {automaton next : Automaton}

theorem run_cons_of_some (h : automaton.step? token = some next) :
    automaton.run (token :: later) = next.run later := by
  rw [run, h]

theorem run_cons_of_none (h : automaton.step? token = none) :
    automaton.run (token :: later) = automaton.leave (.unexpectedToken token) := by
  rw [run, h]

theorem run_append_of_foldlM {before : List Token}
    (h : before.foldlM step? automaton = some next) :
    automaton.run (before ++ later) = next.run later := by
  induction before generalizing automaton with
  | nil =>
    cases h
    rfl
  | cons token before ih =>
    rw [List.foldlM_cons] at h
    obtain ⟨between, hstep, hrest⟩ := Option.bind_eq_some_iff.mp h
    rw [List.cons_append, run_cons_of_some hstep]
    exact ih hrest

theorem opened_of_step? (h : automaton.step? token = some next) (ho : automaton.opened) :
    next.opened := by
  rw [step?] at h
  split at h <;> grind

private theorem leave_ne_accepted {reason : Reason} (ho : automaton.opened) :
    automaton.leave reason ≠ .accepted := by
  rw [leave]
  split
  · simp
  · simp [ho]

/-- There is no way back out of a parenthesis. -/
private theorem run_ne_accepted (ho : automaton.opened) (tokens : List Token) :
    automaton.run tokens ≠ .accepted := by
  induction tokens generalizing automaton with
  | nil => exact leave_ne_accepted ho
  | cons token later ih =>
    cases hs : automaton.step? token with
    | none =>
      rw [run_cons_of_none hs]
      exact leave_ne_accepted ho
    | some next =>
      rw [run_cons_of_some hs]
      exact ih (opened_of_step? hs ho)

/-- Where no parenthesis is opened, the texts of operands count for nothing. -/
theorem run_map {f : Token → Token} (hkind : ∀ token, (f token).kind = token.kind)
    {tokens : List Token} (hfixed : ∀ token ∈ tokens, token.kind.isOperand ∨ f token = token)
    (hplain : ∀ token ∈ tokens, ¬ token.is .operator "(") (expected : Expected) :
    (Automaton.mk expected false).run (tokens.map f) =
      (Automaton.mk expected false).run tokens := by
  induction tokens generalizing expected with
  | nil => rfl
  | cons token later ih =>
    rw [List.forall_mem_cons] at hfixed hplain
    have hlater := ih hfixed.2 hplain.2
    rw [List.map_cons]
    cases expected with
    | term =>
      by_cases ho : token.kind.isOperand
      · have hstep (other : Token) (hk : other.kind.isOperand) :
            (Automaton.mk .term false).step? other = some ⟨.operator, false⟩ := by
          simp [step?, hk]
        rw [run_cons_of_some (hstep token ho),
          run_cons_of_some (hstep (f token) (by rwa [hkind])), hlater]
      · have hstop : (Automaton.mk .term false).step? token = none := by
          simp [step?, ho, hplain.1]
        rw [hfixed.1.resolve_left ho, run_cons_of_none hstop, run_cons_of_none hstop]
    | operator =>
      by_cases ho : token.kind = .operator
      · have hstep (other : Token) (hk : other.kind = .operator) :
            (Automaton.mk .operator false).step? other = some ⟨.term, false⟩ := by
          simp [step?, hk]
        rw [run_cons_of_some (hstep token ho),
          run_cons_of_some (hstep (f token) (by rwa [hkind])), hlater]
      · have hstop (other : Token) (hk : other.kind ≠ .operator) :
            (Automaton.mk .operator false).step? other = none := by
          simp [step?, hk]
        rw [run_cons_of_none (hstop token ho),
          run_cons_of_none (hstop (f token) (by rwa [hkind]))]
        rfl

end Automaton

namespace Reading

/-- The verdict of the automaton that goes on where a reading has been accepted. -/
def resume (reading : Reading start) (opened : Bool) : Verdict :=
  match reading.verdict with
  | .accepted => (Automaton.mk .operator opened).run reading.cursor.visible
  | .rejected failure => .rejected failure

/-- The automaton follows a reading, which has closed no parenthesis and is rejected if it has
opened one. -/
structure Simulated (expected : Expected) (reading : Reading start) : Prop where
  run : ∀ opened, (Automaton.mk expected opened).run start.visible = reading.resume opened
  closed : Step.closeParenthesis ∉ reading.steps
  opened : Step.openParenthesis ∈ reading.steps → reading.verdict ≠ .accepted

/-- A reading is accepted in front of no operator only. -/
def Settled (reading : Reading start) : Prop :=
  reading.verdict = .accepted → reading.cursor.accept? .operator = none

variable {expected next : Expected}

private theorem simulated_stop (cursor : Cursor) : Simulated .operator (stop cursor .accepted) where
  run _ := rfl
  closed := List.not_mem_nil
  opened h := (List.not_mem_nil h).elim

private theorem Simulated.follow {reading : Reading after} {step : Step}
    {h : after.unread.length ≤ start.unread.length} (hr : Simulated next reading)
    (hv : start.visible = token :: after.visible)
    (hs : ∀ opened, (Automaton.mk expected opened).step? token = some ⟨next, opened⟩)
    (hc : step ≠ .closeParenthesis) (ho : step ≠ .openParenthesis) :
    Simulated expected (reading.follow [step] h) where
  run opened := by
    rw [hv, Automaton.run_cons_of_some (hs opened), hr.run]
    rfl
  closed hm := by
    rcases List.mem_cons.mp hm with he | hm
    · exact hc he.symm
    · exact hr.closed hm
  opened hm := by
    rcases List.mem_cons.mp hm with he | hm
    · exact (ho he.symm).elim
    · exact hr.opened hm

private theorem Settled.follow {reading : Reading after} {steps : List Step}
    {h : after.unread.length ≤ start.unread.length} (hr : Settled reading) :
    Settled (reading.follow steps h) :=
  hr

section andThen

variable {first : Reading start}
  {following : (cursor : Cursor) → cursor.unread.length ≤ start.unread.length → Reading cursor}

private theorem Simulated.andThen (hf : Simulated expected first)
    (hn : Simulated .operator (following first.cursor first.forward)) :
    Simulated expected (first.andThen following) := by
  cases hv : first.verdict with
  | rejected failure =>
    rw [andThen_of_rejected hv]
    exact hf
  | accepted =>
    rw [andThen_of_accepted hv]
    constructor
    case run =>
      intro opened
      have hresume : first.resume opened =
          (Automaton.mk .operator opened).run first.cursor.visible := by rw [resume, hv]
      rw [hf.run, hresume, hn.run]
      rfl
    case closed =>
      intro hm
      rcases List.mem_append.mp hm with hm | hm
      · exact hf.closed hm
      · exact hn.closed hm
    case opened =>
      intro hm
      rcases List.mem_append.mp hm with hm | hm
      · exact (hf.opened hm hv).elim
      · exact hn.opened hm

private theorem Settled.andThen (hn : Settled (following first.cursor first.forward)) :
    Settled (first.andThen following) := by
  cases hv : first.verdict with
  | rejected failure =>
    rw [andThen_of_rejected hv]
    intro ha
    rw [hv] at ha
    cases ha
  | accepted =>
    rw [andThen_of_accepted hv]
    exact hn

end andThen

private theorem expect_of_settled {cursor : Cursor} (h : cursor.accept? .operator = none) :
    ∃ reason after, cursor.expect ")" = (.error reason, after) ∧
      (Automaton.mk .operator true).run cursor.visible = .rejected ⟨.parenthesisEnd, reason⟩ := by
  cases hn : cursor.next? with
  | none =>
    rw [Cursor.visible_of_next?_none hn]
    exact ⟨.unexpectedEnd, cursor, Cursor.expect_of_none hn _, rfl⟩
  | some found =>
    obtain ⟨token, after⟩ := found
    have hk : token.kind ≠ .operator := Cursor.kind_ne_of_accept?_none h hn
    have hstop : (Automaton.mk .operator true).step? token = none := by
      simp [Automaton.step?, hk]
    rw [Cursor.visible_of_next? hn, Automaton.run_cons_of_none hstop]
    exact ⟨.unexpectedToken token, after, Cursor.expect_of_ne_operator hn hk _, rfl⟩

theorem parenthesisEnd_of_settled {cursor : Cursor} (h : cursor.accept? .operator = none) :
    (parenthesisEnd cursor).steps = [] ∧
      (parenthesisEnd cursor).verdict = (Automaton.mk .operator true).run cursor.visible := by
  obtain ⟨reason, after, he, hrun⟩ := expect_of_settled h
  obtain ⟨hsteps, hverdict, -⟩ := parenthesisEnd_of_error he
  rw [hrun]
  exact ⟨hsteps, hverdict⟩

private theorem inside_verdict {cursor : Cursor} (hs : Simulated .term (expression cursor))
    (ht : Settled (expression cursor)) :
    Step.closeParenthesis ∉
        ((expression cursor).andThen fun inside _ => parenthesisEnd inside).steps ∧
      ((expression cursor).andThen fun inside _ => parenthesisEnd inside).verdict =
        (Automaton.mk .term true).run cursor.visible := by
  rw [hs.run]
  cases hv : (expression cursor).verdict with
  | rejected failure =>
    rw [andThen_of_rejected hv, resume, hv]
    exact ⟨hs.closed, rfl⟩
  | accepted =>
    obtain ⟨hsteps, hverdict⟩ := parenthesisEnd_of_settled (ht hv)
    rw [andThen_of_accepted hv, resume, hv]
    refine ⟨?_, hverdict⟩
    simp only [follow, hsteps, List.append_nil]
    exact hs.closed

private theorem simulated_of_open (h : start.next? = some (token, after))
    (ho : ¬ token.kind.isOperand) (hp : token.is .operator "(")
    (hs : Simulated .term (expression after)) (ht : Settled (expression after)) :
    Simulated .term (term start) := by
  obtain ⟨hclosed, hverdict⟩ := inside_verdict hs ht
  have hne : (Automaton.mk .term true).run after.visible ≠ .accepted :=
    Automaton.run_ne_accepted rfl _
  rw [term_of_open h ho hp]
  generalize (expression after).andThen (fun inside _ => parenthesisEnd inside) = inside at *
  rw [← hverdict] at hne
  constructor
  case run =>
    intro opened
    have hstep : (Automaton.mk .term opened).step? token = some ⟨.term, true⟩ := by
      simp [Automaton.step?, ho, hp]
    rw [Cursor.visible_of_next? h, Automaton.run_cons_of_some hstep, ← hverdict, resume]
    cases hv : inside.verdict with
    | accepted => exact (hne hv).elim
    | rejected failure => simp [follow, hv]
  case closed =>
    intro hm
    rcases List.mem_cons.mp hm with he | hm
    · cases he
    · exact hclosed hm
  case opened =>
    intro _
    exact hne

/-- The automaton follows every reading. -/
theorem simulated : (∀ start, Simulated .term (term start)) ∧
    (∀ start, Simulated .term (expression start) ∧ Settled (expression start)) ∧
    ∀ start, Simulated .operator (operations start) ∧ Settled (operations start) := by
  apply term.mutual_induct
  case case1 =>
    intro start h
    rw [term_of_none h]
    refine ⟨?_, List.not_mem_nil, fun hm => (List.not_mem_nil hm).elim⟩
    intro opened
    rw [Cursor.visible_of_next?_none h]
    rfl
  case case2 =>
    intro start token after h _ ho
    rw [term_of_operand h ho]
    refine (simulated_stop after).follow (Cursor.visible_of_next? h) ?_ (by simp) (by simp)
    simp [Automaton.step?, ho]
  case case3 =>
    intro start token after h _ ho hp ih
    exact simulated_of_open h ho hp ih.1 ih.2
  case case4 =>
    intro start token after h _ ho hp
    rw [term_of_other h ho hp]
    refine ⟨?_, List.not_mem_nil, fun hm => (List.not_mem_nil hm).elim⟩
    intro opened
    have hstop : (Automaton.mk .term opened).step? token = none := by
      simp [Automaton.step?, ho, hp]
    rw [Cursor.visible_of_next? h, Automaton.run_cons_of_none hstop]
    rfl
  case case5 =>
    intro start ihTerm ihOperations
    rw [expression]
    have hnext := ihOperations (term start).cursor (term start).forward
    exact ⟨ihTerm.andThen hnext.1, Settled.andThen hnext.2⟩
  case case6 =>
    intro start h
    rw [operations_of_none h]
    exact ⟨simulated_stop start, fun _ => h⟩
  case case7 =>
    intro start token after h _ ihTerm ihOperations
    rw [operations_of_some h]
    obtain ⟨hnext, hkind⟩ := Cursor.next?_of_accept? h
    have hlater := ihOperations (term after).cursor (term after).forward
    refine ⟨?_, (Settled.andThen hlater.2).follow⟩
    refine (ihTerm.andThen hlater.1).follow (Cursor.visible_of_next? hnext) ?_ (by simp) (by simp)
    simp [Automaton.step?, hkind]

private theorem expression_verdict (cursor : Cursor) :
    (expression cursor).verdict = Automaton.start.run cursor.visible := by
  obtain ⟨hs, ht⟩ := simulated.2.1 cursor
  rw [Automaton.start, hs.run, resume]
  cases hv : (expression cursor).verdict with
  | rejected failure => rfl
  | accepted =>
    rcases Cursor.visible_of_accept?_none (ht hv) with he | ⟨token, later, he, hk⟩
    · rw [he]
      rfl
    · have hstop : (Automaton.mk .operator false).step? token = none := by
        simp [Automaton.step?, hk]
      rw [he, Automaton.run_cons_of_none hstop]
      rfl

end Reading

theorem recognize_verdict (tokens : List Token) :
    (recognize tokens).verdict = Automaton.start.run (tokens.filter (!·.isComment)) :=
  Reading.expression_verdict (Cursor.start tokens)

/-- The recursive reading gives the verdict of the flat automaton on the tokens without comments. A
closing parenthesis is never read as one, and no text that opens a parenthesis is accepted. -/
theorem recognize_eq_automaton (tokens : List Token) :
    (recognize tokens).verdict = Automaton.start.run (tokens.filter (!·.isComment)) ∧
    Step.closeParenthesis ∉ (recognize tokens).steps ∧
    (∀ cursor, (Reading.expression cursor).verdict = .accepted →
      ∀ token, ((Reading.expression cursor).cursor.expect ")").1 ≠ .ok token) ∧
    (Step.openParenthesis ∈ (recognize tokens).steps → (recognize tokens).verdict ≠ .accepted) ∧
    (∀ before parenthesis later opened,
      tokens.filter (!·.isComment) = before ++ parenthesis :: later →
      before.foldlM Automaton.step? .start = some ⟨.term, opened⟩ →
      parenthesis.is .operator "(" → (recognize tokens).verdict ≠ .accepted) := by
  have hverdict : (recognize tokens).verdict =
      Automaton.start.run (tokens.filter (!·.isComment)) :=
    Reading.expression_verdict (Cursor.start tokens)
  obtain ⟨hs, -⟩ := Reading.simulated.2.1 (Cursor.start tokens)
  refine ⟨hverdict, hs.closed, ?_, hs.opened, ?_⟩
  · intro cursor hv token hok
    obtain ⟨reason, after, he, -⟩ :=
      Reading.expect_of_settled ((Reading.simulated.2.1 cursor).2 hv)
    rw [he] at hok
    cases hok
  · intro before parenthesis later opened hsplit hbefore hp
    have hkind : parenthesis.kind = .operator := by rw [Token.is_iff.mp hp]
    have hstep : (Automaton.mk .term opened).step? parenthesis = some ⟨.term, true⟩ := by
      simp [Automaton.step?, hkind, Kind.isOperand, hp]
    rw [hverdict, hsplit, Automaton.run_append_of_foldlM hbefore, Automaton.run_cons_of_some hstep]
    exact Automaton.run_ne_accepted rfl later

theorem recognize_eq_automaton_parenthesised :
    (recognize [⟨.operator, "("⟩, ⟨.identifier, "x"⟩, ⟨.operator, ")"⟩]).verdict =
      .rejected ⟨.term, .unexpectedEnd⟩ ∧
    [⟨.identifier, "x"⟩, ⟨.operator, "+"⟩].foldlM Automaton.step? .start = some ⟨.term, false⟩ ∧
    (recognize [⟨.identifier, "x"⟩, ⟨.operator, "+"⟩, ⟨.operator, "("⟩, ⟨.int, "1"⟩]).verdict ≠
      .accepted := by
  have hsum : [⟨.identifier, "x"⟩, ⟨.operator, "+"⟩].foldlM Automaton.step? .start =
      some ⟨.term, false⟩ := by decide
  obtain ⟨hverdict, -⟩ :=
    recognize_eq_automaton [⟨.operator, "("⟩, ⟨.identifier, "x"⟩, ⟨.operator, ")"⟩]
  obtain ⟨-, -, -, -, hopen⟩ := recognize_eq_automaton
    [⟨.identifier, "x"⟩, ⟨.operator, "+"⟩, ⟨.operator, "("⟩, ⟨.int, "1"⟩]
  exact ⟨hverdict.trans (by decide), hsum,
    hopen [⟨.identifier, "x"⟩, ⟨.operator, "+"⟩] ⟨.operator, "("⟩ [⟨.int, "1"⟩] false (by decide) hsum
      (by decide)⟩

end ExprScan
