import ExprScan.Expression.Trace
import ExprScan.Proofs.Expression.Extent
import ExprScan.Report.Record

/-! What a reading says is a transcript of the tokens that it reads. The automaton keeps the same one,
and there it has an entry for each token that is passed and no other. -/
namespace ExprScan

variable {start after cursor : Cursor} {token : Token} {tokens before later list : List Token}
  {index i : Nat} {failure : Failure} {step : Step}

namespace Automaton

variable {automaton next : Automaton}

def tell (automaton : Automaton) (token : Token) : Step :=
  if automaton.expected = .operator then .operator token.lexeme
  else if token.kind.isOperand then .term token.lexeme
  else .openParenthesis

def steps (automaton : Automaton) : List Token → List Step
  | [] => []
  | token :: later =>
    match automaton.step? token with
    | some next => automaton.tell token :: next.steps later
    | none => []

private theorem steps_cons_of_some (h : automaton.step? token = some next) :
    automaton.steps (token :: later) = automaton.tell token :: next.steps later := by
  rw [steps, h]

private theorem steps_cons_of_none (h : automaton.step? token = none) :
    automaton.steps (token :: later) = [] := by
  rw [steps, h]

private theorem steps_append_of_foldlM (h : before.foldlM step? automaton = some next) :
    (automaton.steps (before ++ later)).length = before.length + (next.steps later).length := by
  induction before generalizing automaton with
  | nil =>
    cases h
    exact (Nat.zero_add _).symm
  | cons token before ih =>
    rw [List.foldlM_cons] at h
    obtain ⟨between, hstep, hrest⟩ := Option.bind_eq_some_iff.mp h
    rw [List.cons_append, steps_cons_of_some hstep, List.length_cons, ih hrest, List.length_cons,
      Nat.add_right_comm]

private theorem expected_of_step? (h : automaton.step? token = some next) :
    next.expected = .term ↔ token.kind = .operator := by
  have hoperand (ho : token.kind.isOperand) : token.kind ≠ .operator := by
    intro hk
    rw [hk] at ho
    cases ho
  rw [step?] at h
  split at h
  · split at h
    · next ho =>
      cases h
      simp [hoperand ho]
    · split at h
      · next hp =>
        cases h
        simp [Token.is_iff.mp hp]
      · cases h
  · split at h
    · next hk =>
      cases h
      simp [hk]
    · cases h

private theorem told_of_step? (hd : automaton.expected = .term ↔ TermDue before)
    (h : automaton.step? token = some next) : Told before token (automaton.tell token).describe := by
  obtain ⟨expected, opened⟩ := automaton
  rw [step?] at h
  cases expected with
  | term =>
    have hdue := hd.mp rfl
    by_cases ho : token.kind.isOperand
    · have ht : tell ⟨.term, opened⟩ token = .term token.lexeme := by simp [tell, ho]
      rw [ht]
      exact .term hdue ho
    · have ht : tell ⟨.term, opened⟩ token = .openParenthesis := by simp [tell, ho]
      have hp : token.is .operator "(" := by
        by_contra hp
        simp [ho, hp] at h
      rw [ht]
      exact .openParenthesis hdue hp
  | operator =>
    have hk : token.kind = .operator := by
      by_contra hk
      simp [hk] at h
    exact .operator (mt hd.mpr (by simp)) hk

private theorem told_of_getElem?_steps (hd : automaton.expected = .term ↔ TermDue before)
    (h : (automaton.steps list)[i]? = some step) :
    ∃ token, list[i]? = some token ∧ Told (before ++ list.take i) token step.describe := by
  induction list generalizing automaton before i with
  | nil => cases h
  | cons token later ih =>
    cases hs : automaton.step? token with
    | none =>
      rw [steps_cons_of_none hs] at h
      cases h
    | some next =>
      rw [steps_cons_of_some hs] at h
      cases i with
      | zero =>
        cases h
        refine ⟨token, rfl, ?_⟩
        rw [List.take_zero, List.append_nil]
        exact told_of_step? hd hs
      | succ i =>
        have hnext : next.expected = .term ↔ TermDue (before ++ [token]) := by
          rw [expected_of_step? hs]
          simp [TermDue]
        obtain ⟨found, hfound, htold⟩ := ih hnext h
        rw [List.append_assoc, List.singleton_append] at htold
        exact ⟨found, hfound, htold⟩

end Automaton

namespace Reading

variable {expected next : Expected}

def stepsAhead (reading : Reading start) (opened : Bool) : List Step :=
  if reading.verdict = .accepted then (Automaton.mk .operator opened).steps reading.cursor.visible
  else []

private def Traced (expected : Expected) (reading : Reading start) : Prop :=
  ∀ opened, (Automaton.mk expected opened).steps start.visible =
    reading.steps ++ reading.stepsAhead opened

private theorem stepsAhead_of_rejected {reading : Reading start}
    (h : reading.verdict = .rejected failure) (opened : Bool) : reading.stepsAhead opened = [] := by
  simp [stepsAhead, h]

private theorem steps_of_settled (h : cursor.accept? .operator = none) (opened : Bool) :
    (Automaton.mk .operator opened).steps cursor.visible = [] := by
  rcases Cursor.visible_of_accept?_none h with he | ⟨token, later, he, hk⟩
  · rw [he]
    rfl
  · rw [he, Automaton.steps_cons_of_none]
    simp [Automaton.step?, hk]

private theorem Settled.stepsAhead {reading : Reading start} (h : Settled reading) (opened : Bool) :
    reading.stepsAhead opened = [] := by
  cases hv : reading.verdict with
  | rejected failure => exact stepsAhead_of_rejected hv opened
  | accepted =>
    rw [Reading.stepsAhead, if_pos hv]
    exact steps_of_settled (h hv) opened

private theorem traced_stop (cursor : Cursor) :
    Traced .operator (stop cursor .accepted) := fun _ => rfl

private theorem Traced.follow {reading : Reading after}
    {h : after.unread.length ≤ start.unread.length} (hr : Traced next reading)
    (hv : start.visible = token :: after.visible)
    (hs : ∀ opened, (Automaton.mk expected opened).step? token = some ⟨next, opened⟩)
    (ht : ∀ opened, (Automaton.mk expected opened).tell token = step) :
    Traced expected (reading.follow [step] h) := by
  intro opened
  rw [hv, Automaton.steps_cons_of_some (hs opened), hr, ht]
  rfl

private theorem Traced.andThen {first : Reading start}
    {following : (cursor : Cursor) → cursor.unread.length ≤ start.unread.length → Reading cursor}
    (hf : Traced expected first) (hn : Traced .operator (following first.cursor first.forward)) :
    Traced expected (first.andThen following) := by
  cases hv : first.verdict with
  | rejected failure =>
    rw [andThen_of_rejected hv]
    exact hf
  | accepted =>
    rw [andThen_of_accepted hv]
    intro opened
    rw [hf, stepsAhead, if_pos hv, hn, ← List.append_assoc]
    rfl

private theorem inside_steps (hr : Traced .term (expression cursor))
    (hs : Settled (expression cursor)) :
    ((expression cursor).andThen fun inside _ => parenthesisEnd inside).steps =
      (Automaton.mk .term true).steps cursor.visible := by
  rw [hr, hs.stepsAhead, List.append_nil]
  cases hv : (expression cursor).verdict with
  | rejected failure => rw [andThen_of_rejected hv]
  | accepted =>
    rw [andThen_of_accepted hv, follow, (parenthesisEnd_of_settled (hs hv)).1]
    exact List.append_nil _

private theorem traced : (∀ start, Traced .term (term start)) ∧
    (∀ start, Traced .term (expression start)) ∧
    ∀ start, Traced .operator (operations start) := by
  apply term.mutual_induct
  case case1 =>
    intro start h opened
    rw [term_of_none h, Cursor.visible_of_next?_none h]
    rfl
  case case2 =>
    intro start token after h _ ho
    rw [term_of_operand h ho]
    refine (traced_stop after).follow (Cursor.visible_of_next? h) ?_ ?_
    · simp [Automaton.step?, ho]
    · simp [Automaton.tell, ho]
  case case3 =>
    intro start token after h _ ho hp ih opened
    have hs : (Automaton.mk .term opened).step? token = some ⟨.term, true⟩ := by
      simp [Automaton.step?, ho, hp]
    have ht : (Automaton.mk .term opened).tell token = .openParenthesis := by
      simp [Automaton.tell, ho]
    have hsteps := inside_steps ih (simulated.2.1 after).2
    obtain ⟨failure, hv, -⟩ := halts_inside (halts.2.1 after) (simulated.2.1 after).2
    -- nothing is accepted behind a parenthesis, so the automaton makes no step more
    have hrejected : (term start).verdict = .rejected failure := by
      rw [term_of_open h ho hp]
      exact hv
    rw [stepsAhead_of_rejected hrejected, List.append_nil, term_of_open h ho hp,
      Cursor.visible_of_next? h, Automaton.steps_cons_of_some hs, ht, follow, hsteps]
    rfl
  case case4 =>
    intro start token after h _ ho hp opened
    have hs : (Automaton.mk .term opened).step? token = none := by
      simp [Automaton.step?, ho, hp]
    rw [term_of_other h ho hp, Cursor.visible_of_next? h, Automaton.steps_cons_of_none hs]
    rfl
  case case5 =>
    intro start ihTerm ihOperations
    rw [expression]
    exact ihTerm.andThen (ihOperations (term start).cursor (term start).forward)
  case case6 =>
    intro start h
    rw [operations_of_none h]
    exact traced_stop start
  case case7 =>
    intro start token after h _ ihTerm ihOperations
    rw [operations_of_some h]
    obtain ⟨hnext, hkind⟩ := Cursor.next?_of_accept? h
    refine (ihTerm.andThen (ihOperations (term after).cursor (term after).forward)).follow
      (Cursor.visible_of_next? hnext) ?_ ?_
    · simp [Automaton.step?, hkind]
    · simp [Automaton.tell]

end Reading

theorem recognize_steps (tokens : List Token) :
    (recognize tokens).steps = Automaton.start.steps (tokens.filter (!·.isComment)) := by
  have htraced := Reading.traced.2.1 (Cursor.start tokens) false
  rw [(Reading.simulated.2.1 (Cursor.start tokens)).2.stepsAhead, List.append_nil] at htraced
  exact htraced.symm

private theorem StuckAt.length_steps {automaton : Automaton} (h : StuckAt tokens index automaton) :
    (recognize tokens).steps.length = visibleBefore tokens index := by
  have hahead : automaton.steps ((tokens.drop index).filter (!·.isComment)) = [] := by
    have hhead := h.head?_ahead
    cases hf : (tokens.drop index).filter (!·.isComment) with
    | nil => rfl
    | cons token later =>
      rw [hf] at hhead
      exact Automaton.steps_cons_of_none (h.stuck token hhead.symm).2
  conv => lhs; rw [recognize_steps, ← List.take_append_drop index tokens, List.filter_append]
  rw [Automaton.steps_append_of_foldlM h.passed, hahead]
  rfl

private theorem readUpTo_iff {count : Nat} :
    ReadUpTo tokens count ↔ count = (recognize tokens).steps.length := by
  constructor
  · intro h
    cases h with
    | rejected hat =>
      obtain ⟨automaton, hs, -⟩ := rejectedAt_iff.mp hat
      exact hs.length_steps.symm
    | unread verdict unread first =>
      exact (stuckAt_of_accepted verdict ⟨unread, fun other => first other⟩).length_steps.symm
    | ended verdict none =>
      obtain ⟨index, hs, hleast | ⟨rfl, -⟩⟩ := exists_stuckAt_of_accepted verdict
      · exact (none index hleast.1).elim
      · exact hs.length_steps.symm
  · rintro rfl
    cases hv : (recognize tokens).verdict with
    | rejected failure =>
      obtain ⟨index, automaton, hs, hat⟩ := exists_rejectedAt hv
      rw [hs.length_steps]
      exact .rejected hat
    | accepted =>
      obtain ⟨index, hs, ⟨hu, hfirst⟩ | ⟨rfl, hnone⟩⟩ := exists_stuckAt_of_accepted hv
      · rw [hs.length_steps]
        exact .unread hv hu fun other ho => hfirst ho
      · rw [hs.length_steps]
        exact .ended hv hnone

private theorem Told.ne_closeParenthesis {message : String} (h : Told before token message) :
    message ≠ "Close parenthesis" := by
  intro he
  have hlist := congrArg String.toList he
  cases h <;> simp at hlist

/-- What a reading says is an exact transcript: one message for each token that is read as part of the
expression, in the order of the tokens, and then the verdict. No message is about a closing
parenthesis. -/
theorem recognize_transcript (tokens : List Token) : ∃ (messages : List String) (summary : String),
    (recognize tokens).records = messages.map (.log .trace) ++ [.log .debug summary] ∧
    (∀ count, ReadUpTo tokens count ↔ count = messages.length) ∧
    (∀ i message, messages[i]? = some message →
      ∃ token, (tokens.filter (!·.isComment))[i]? = some token ∧
        Told ((tokens.filter (!·.isComment)).take i) token message) ∧
    "Close parenthesis" ∉ messages ∧
    ((recognize tokens).verdict = .accepted →
      summary = "Accepted " ++ toString tokens.length ++ " tokens") ∧
    ∀ failure, (recognize tokens).verdict = .rejected failure →
      summary = "Rejected: " ++ failure.describe := by
  have htold : ∀ i message, ((recognize tokens).steps.map Step.describe)[i]? = some message →
      ∃ token, (tokens.filter (!·.isComment))[i]? = some token ∧
        Told ((tokens.filter (!·.isComment)).take i) token message := by
    intro i message hm
    rw [List.getElem?_map] at hm
    obtain ⟨step, hstep, rfl⟩ := Option.map_eq_some_iff.mp hm
    rw [recognize_steps] at hstep
    have hdue : Automaton.start.expected = .term ↔ TermDue [] := by simp [Automaton.start, TermDue]
    exact Automaton.told_of_getElem?_steps hdue hstep
  refine ⟨(recognize tokens).steps.map Step.describe,
    (recognize tokens).verdict.summary tokens.length, ?_, ?_, htold, ?_, ?_, ?_⟩
  · rw [Reading.records, List.map_map]
    rfl
  · intro count
    rw [List.length_map]
    exact readUpTo_iff
  · intro hm
    obtain ⟨i, hi⟩ := List.mem_iff_getElem?.mp hm
    obtain ⟨token, -, ht⟩ := htold i _ hi
    exact ht.ne_closeParenthesis rfl
  · intro hv
    rw [hv]
    rfl
  · intro failure hv
    rw [hv]
    rfl

/-- The first closing parenthesis is an operator, the second one is rejected where a term should start.
In the other list the name behind the operand is left unread. -/
theorem recognize_transcript_parentheses :
    (∃ messages : List String,
      (recognize [⟨.operator, "("⟩, ⟨.identifier, "x"⟩, ⟨.comment, "// c"⟩, ⟨.operator, ")"⟩,
        ⟨.operator, ")"⟩]).records = messages.map (.log .trace) ++
          [.log .debug ("Rejected: " ++ Failure.describe
            ⟨.term, .unexpectedToken ⟨.operator, ")"⟩⟩)] ∧
      messages.length = 3 ∧ messages[2]? = some "Operator: )") ∧
    ∃ messages : List String,
      (recognize [⟨.int, "1"⟩, ⟨.comment, "// c"⟩, ⟨.identifier, "y"⟩]).records =
        messages.map (.log .trace) ++ [.log .debug "Accepted 3 tokens"] := by
  constructor
  · obtain ⟨messages, summary, hrecords, hcount, htold, -, -, hrejected⟩ :=
      recognize_transcript [⟨.operator, "("⟩, ⟨.identifier, "x"⟩, ⟨.comment, "// c"⟩,
        ⟨.operator, ")"⟩, ⟨.operator, ")"⟩]
    have hv : (recognize [⟨.operator, "("⟩, ⟨.identifier, "x"⟩, ⟨.comment, "// c"⟩,
        ⟨.operator, ")"⟩, ⟨.operator, ")"⟩]).verdict =
          .rejected ⟨.term, .unexpectedToken ⟨.operator, ")"⟩⟩ :=
      (recognize_verdict _).trans (by decide)
    have hat : RejectedAt [⟨.operator, "("⟩, ⟨.identifier, "x"⟩, ⟨.comment, "// c"⟩,
        ⟨.operator, ")"⟩, ⟨.operator, ")"⟩] ⟨.term, .unexpectedToken ⟨.operator, ")"⟩⟩ 4 :=
      .token hv rfl rfl (by cbv)
    have hlength : messages.length = 3 := ((hcount 3).mp (.rejected hat)).symm
    obtain ⟨message, hm⟩ : ∃ message, messages[2]? = some message :=
      ⟨_, List.getElem?_eq_getElem (by rw [hlength]; decide)⟩
    obtain ⟨token, ht, htoken⟩ := htold 2 message hm
    cases ht
    rw [hrejected _ hv] at hrecords
    refine ⟨messages, hrecords, hlength, ?_⟩
    cases htoken with
    | term due operand => cases operand
    | openParenthesis due opened => exact absurd opened (by decide)
    | operator between kind => exact hm
  · obtain ⟨messages, summary, hrecords, -, -, -, haccepted, -⟩ :=
      recognize_transcript [⟨.int, "1"⟩, ⟨.comment, "// c"⟩, ⟨.identifier, "y"⟩]
    rw [haccepted ((recognize_verdict _).trans (by decide))] at hrecords
    exact ⟨messages, hrecords⟩

end ExprScan
