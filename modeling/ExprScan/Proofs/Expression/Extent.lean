import ExprScan.Expression.Extent
import ExprScan.Proofs.Expression.Placement
import Mathlib.Data.List.TakeWhile

/-! No token behind the one that settles the verdict counts. Every reading stops where the automaton
cannot go on, and that the automaton gets to an index and cannot go on there is a matter of the tokens
up to that index. -/
namespace ExprScan

variable {tokens others before later : List Token} {token : Token} {index other : Nat}
  {cursor between after : Cursor} {failure : Failure} {reason : Reason}

namespace Cursor

/-- The token that is read stands behind comments. -/
theorem unread_of_next? (h : cursor.next? = some (token, after)) :
    ∃ comments, (∀ comment ∈ comments, comment.isComment) ∧ ¬ token.isComment ∧
      cursor.unread = comments ++ token :: after.unread ∧
      after.position = cursor.position + comments.length + 1 := by
  have hhead := List.head?_dropWhile_not Token.isComment cursor.unread
  have happend := List.takeWhile_append_dropWhile (p := Token.isComment) (l := cursor.unread)
  rw [next?] at h
  split at h
  · cases h
  · next unread he =>
    cases h
    change cursor.unread.dropWhile Token.isComment = _ at he
    rw [he] at hhead happend
    refine ⟨cursor.unread.takeWhile Token.isComment, ?_, ?_, happend.symm, rfl⟩
    · intro comment hm
      exact List.mem_takeWhile_imp hm
    · simpa using hhead

private theorem isComment_of_next?_none (h : cursor.next? = none) :
    ∀ token ∈ cursor.unread, token.isComment := by
  simpa [visible] using visible_of_next?_none h

end Cursor

namespace Automaton

variable {automaton next last : Automaton}

theorem reason_of_leave (h : automaton.leave reason = .rejected failure) :
    failure.reason = reason := by
  rw [leave] at h
  split at h
  · cases h
    rfl
  · split at h
    · cases h
      rfl
    · cases h

/-- The automaton behind tokens, if it can go on with all of them that are no comments. -/
def pass? (automaton : Automaton) (tokens : List Token) : Option Automaton :=
  (tokens.filter (!·.isComment)).foldlM step? automaton

private theorem pass?_append : automaton.pass? (before ++ later) =
    (automaton.pass? before).bind (·.pass? later) := by
  rw [pass?, List.filter_append, List.foldlM_append]
  rfl

private theorem pass?_cons (h : ¬ token.isComment) : automaton.pass? (token :: later) =
    (automaton.step? token).bind (·.pass? later) := by
  rw [pass?, List.filter_cons_of_pos (by simpa using h), List.foldlM_cons]
  rfl

private theorem pass?_of_comments (h : ∀ token ∈ tokens, token.isComment) :
    automaton.pass? tokens = some automaton := by
  rw [pass?, List.filter_eq_nil_iff.mpr (by simpa using h)]
  rfl

def Passes (automaton : Automaton) (start : Cursor) (next : Automaton) (after : Cursor) : Prop :=
  ∃ read, start.unread = read ++ after.unread ∧
    after.position = start.position + read.length ∧ automaton.pass? read = some next

private theorem Passes.refl : Passes automaton cursor automaton cursor :=
  ⟨[], rfl, rfl, rfl⟩

private theorem Passes.trans (hfirst : Passes automaton cursor next between)
    (hsecond : Passes next between last after) : Passes automaton cursor last after := by
  obtain ⟨first, hunread, hposition, hpass⟩ := hfirst
  obtain ⟨second, hunread', hposition', hpass'⟩ := hsecond
  refine ⟨first ++ second, ?_, ?_, ?_⟩
  · rw [hunread, hunread', List.append_assoc]
  · rw [hposition', hposition, List.length_append, Nat.add_assoc]
  · rw [pass?_append, hpass]
    exact hpass'

private theorem Passes.of_next? (h : cursor.next? = some (token, after))
    (hs : automaton.step? token = some next) : Passes automaton cursor next after := by
  obtain ⟨comments, hcomments, hc, hunread, hposition⟩ := Cursor.unread_of_next? h
  refine ⟨comments ++ [token], ?_, ?_, ?_⟩
  · rw [hunread, List.append_assoc]
    rfl
  · rw [hposition, List.length_append]
    rfl
  · rw [pass?_append, pass?_of_comments hcomments, Option.bind_some, pass?_cons hc, hs]
    rfl

/-- How the automaton comes to a verdict, and the place of it. -/
inductive Halts (automaton : Automaton) (start : Cursor) : Verdict → Cursor → Prop where
  | accepted {after : Cursor} (passes : Passes automaton start ⟨.operator, automaton.opened⟩ after) :
      Halts automaton start .accepted after
  | refused {next : Automaton} {cursor after : Cursor} {token : Token} {failure : Failure}
      (passes : Passes automaton start next cursor) (found : cursor.next? = some (token, after))
      (stuck : next.step? token = none)
      (leave : next.leave (.unexpectedToken token) = .rejected failure) :
      Halts automaton start (.rejected failure) after
  | ended {next : Automaton} {after : Cursor} {failure : Failure}
      (passes : Passes automaton start next after) (none : after.next? = none)
      (leave : next.leave .unexpectedEnd = .rejected failure) :
      Halts automaton start (.rejected failure) after

variable {verdict : Verdict}

private theorem Passes.halts (hp : Passes automaton cursor next between)
    (ho : verdict = .accepted → next.opened = automaton.opened)
    (hh : Halts next between verdict after) : Halts automaton cursor verdict after := by
  cases hh with
  | accepted passes =>
    rw [ho rfl] at passes
    exact .accepted (hp.trans passes)
  | refused passes found stuck leave => exact .refused (hp.trans passes) found stuck leave
  | ended passes none leave => exact .ended (hp.trans passes) none leave

private theorem Passes.halts_rejected (hp : Passes automaton cursor next between)
    (hh : Halts next between (.rejected failure) after) :
    Halts automaton cursor (.rejected failure) after := by
  refine hp.halts ?_ hh
  intro h
  cases h

end Automaton

namespace Reading

open Automaton

variable {start : Cursor} {expected : Expected}

/-- A reading comes to its verdict as the automaton does, and at the same place. -/
def Halts (expected : Expected) (reading : Reading start) : Prop :=
  ∀ opened, (Automaton.mk expected opened).Halts start reading.verdict reading.cursor

private theorem halts_stop (cursor : Cursor) : Halts .operator (stop cursor .accepted) := by
  intro opened
  exact .accepted .refl

private theorem Halts.follow {next : Expected} {reading : Reading after} {steps : List Step}
    {h : after.unread.length ≤ start.unread.length} (hr : Halts next reading)
    (hn : start.next? = some (token, after))
    (hs : ∀ opened, (Automaton.mk expected opened).step? token = some ⟨next, opened⟩) :
    Halts expected (reading.follow steps h) := by
  intro opened
  exact (Passes.of_next? hn (hs opened)).halts (fun _ => rfl) (hr opened)

private theorem Halts.andThen {first : Reading start}
    {following : (cursor : Cursor) → cursor.unread.length ≤ start.unread.length → Reading cursor}
    (hf : Halts expected first) (hn : Halts .operator (following first.cursor first.forward)) :
    Halts expected (first.andThen following) := by
  cases hv : first.verdict with
  | rejected failure =>
    rw [andThen_of_rejected hv]
    exact hf
  | accepted =>
    rw [andThen_of_accepted hv]
    intro opened
    have hfirst := hf opened
    rw [hv] at hfirst
    cases hfirst with
    | accepted passes => exact passes.halts (fun _ => rfl) (hn opened)

private theorem halts_parenthesisEnd (h : cursor.accept? .operator = none) :
    ∃ failure, (parenthesisEnd cursor).verdict = .rejected failure ∧
      (Automaton.mk .operator true).Halts cursor (.rejected failure)
        (parenthesisEnd cursor).cursor := by
  cases hn : cursor.next? with
  | none =>
    obtain ⟨-, hv, hc⟩ := parenthesisEnd_of_error (Cursor.expect_of_none hn ")")
    rw [hc]
    exact ⟨_, hv, .ended .refl hn rfl⟩
  | some found =>
    obtain ⟨token, after⟩ := found
    have hk : token.kind ≠ .operator := Cursor.kind_ne_of_accept?_none h hn
    obtain ⟨-, hv, hc⟩ := parenthesisEnd_of_error (Cursor.expect_of_ne_operator hn hk ")")
    rw [hc]
    exact ⟨_, hv, .refused .refl hn (by simp [step?, hk]) rfl⟩

/-- Behind an open parenthesis nothing is accepted. -/
theorem halts_inside (hh : Halts .term (expression cursor)) (ht : Settled (expression cursor)) :
    ∃ failure, ((expression cursor).andThen fun inside _ => parenthesisEnd inside).verdict =
        .rejected failure ∧
      (Automaton.mk .term true).Halts cursor (.rejected failure)
        ((expression cursor).andThen fun inside _ => parenthesisEnd inside).cursor := by
  have hinside := hh true
  cases hv : (expression cursor).verdict with
  | rejected failure =>
    rw [andThen_of_rejected hv]
    rw [hv] at hinside
    exact ⟨failure, hv, hinside⟩
  | accepted =>
    obtain ⟨failure, he, hend⟩ := halts_parenthesisEnd (ht hv)
    rw [andThen_of_accepted hv]
    rw [hv] at hinside
    cases hinside with
    | accepted passes => exact ⟨failure, he, passes.halts_rejected hend⟩

/-- Every reading halts where the automaton does. -/
theorem halts : (∀ start, Halts .term (term start)) ∧
    (∀ start, Halts .term (expression start)) ∧
    ∀ start, Halts .operator (operations start) := by
  apply term.mutual_induct
  case case1 =>
    intro start h opened
    rw [term_of_none h]
    exact .ended .refl h rfl
  case case2 =>
    intro start token after h _ ho
    rw [term_of_operand h ho]
    refine (halts_stop after).follow h ?_
    simp [step?, ho]
  case case3 =>
    intro start token after h _ ho hp ih opened
    obtain ⟨failure, hv, hh⟩ := halts_inside ih (simulated.2.1 after).2
    have hs : (Automaton.mk .term opened).step? token = some ⟨.term, true⟩ := by
      simp [step?, ho, hp]
    rw [term_of_open h ho hp, follow, hv]
    -- nothing is accepted from here on, so the automaton need not forget that parenthesis
    exact (Passes.of_next? h hs).halts_rejected hh
  case case4 =>
    intro start token after h _ ho hp opened
    rw [term_of_other h ho hp]
    exact .refused .refl h (by simp [step?, ho, hp]) rfl
  case case5 =>
    intro start ihTerm ihOperations
    rw [expression]
    exact ihTerm.andThen (ihOperations (term start).cursor (term start).forward)
  case case6 =>
    intro start h
    rw [operations_of_none h]
    exact halts_stop start
  case case7 =>
    intro start token after h _ ihTerm ihOperations
    rw [operations_of_some h]
    obtain ⟨hnext, hkind⟩ := Cursor.next?_of_accept? h
    refine (ihTerm.andThen (ihOperations (term after).cursor (term after).forward)).follow hnext ?_
    simp [step?, hkind]

end Reading

/-- The automaton passes the tokens in front of an index and cannot go on there. -/
structure StuckAt (tokens : List Token) (index : Nat) (automaton : Automaton) : Prop where
  le : index ≤ tokens.length
  passed : Automaton.start.pass? (tokens.take index) = some automaton
  stuck : ∀ token, tokens[index]? = some token →
    ¬ token.isComment ∧ automaton.step? token = none

variable {automaton next : Automaton}

/-- The automaton gets nowhere behind the index at which it is stuck. -/
theorem StuckAt.le_of_pass? (h : StuckAt tokens index automaton) (hle : other ≤ tokens.length)
    (hp : Automaton.start.pass? (tokens.take other) = some next) : other ≤ index := by
  by_contra hlt
  have hlt : index < other := Nat.lt_of_not_le hlt
  have hindex : index < tokens.length := Nat.lt_of_lt_of_le hlt hle
  obtain ⟨hc, hs⟩ := h.stuck tokens[index] (List.getElem?_eq_getElem hindex)
  obtain ⟨count, rfl⟩ := Nat.exists_eq_add_of_lt hlt
  -- the tokens that are passed have the one in them at which the automaton is stuck
  have hsplit : tokens.take (index + count + 1) =
      tokens.take index ++ tokens[index] :: (tokens.drop (index + 1)).take count := by
    rw [Nat.add_assoc, List.take_add, List.drop_eq_getElem_cons hindex, List.take_succ_cons]
  rw [hsplit, Automaton.pass?_append, h.passed, Option.bind_some, Automaton.pass?_cons hc, hs] at hp
  cases hp

private theorem StuckAt.unique (h : StuckAt tokens index automaton)
    (h' : StuckAt tokens other next) : index = other ∧ automaton = next := by
  have hi : index = other :=
    Nat.le_antisymm (h'.le_of_pass? h.le h.passed) (h.le_of_pass? h'.le h'.passed)
  subst hi
  exact ⟨rfl, Option.some.inj (h.passed.symm.trans h'.passed)⟩

/-- Whether the automaton is stuck at a token is a matter of the tokens up to that one. -/
private theorem StuckAt.of_agreeThrough (h : StuckAt tokens index automaton)
    (ht : tokens[index]? = some token) (ha : AgreeThrough tokens others index) :
    StuckAt others index automaton := by
  have hother : others[index]? = some token := (ha index (Nat.le_refl _)).trans ht
  have htake : others.take index = tokens.take index := by
    apply List.ext_getElem?
    intro i
    rw [List.getElem?_take, List.getElem?_take]
    split
    · next hlt => exact ha i (Nat.le_of_lt hlt)
    · rfl
  constructor
  case le => exact Nat.le_of_lt (List.getElem?_eq_some_iff.mp hother).1
  case passed =>
    rw [htake]
    exact h.passed
  case stuck =>
    rw [ha index (Nat.le_refl _)]
    exact h.stuck

/-- The token at which the automaton is stuck is the first one ahead that is no comment. -/
theorem StuckAt.head?_ahead (h : StuckAt tokens index automaton) :
    ((tokens.drop index).filter (!·.isComment)).head? = tokens[index]? := by
  rw [← List.head?_drop]
  cases hd : tokens.drop index with
  | nil => rfl
  | cons token later =>
    have ht : tokens[index]? = some token := by
      rw [← List.head?_drop, hd]
      rfl
    rw [List.filter_cons_of_pos (by simpa using (h.stuck token ht).1)]
    rfl

private theorem StuckAt.verdict (h : StuckAt tokens index automaton) :
    (recognize tokens).verdict = automaton.leave (Reason.at tokens index) := by
  have hrun : Automaton.start.run (tokens.filter (!·.isComment)) =
      automaton.run ((tokens.drop index).filter (!·.isComment)) := by
    conv => lhs; rw [← List.take_append_drop index tokens, List.filter_append]
    exact Automaton.run_append_of_foldlM h.passed
  rw [recognize_verdict, hrun]
  exact Automaton.run_of_stuck h.head?_ahead fun token ht => (h.stuck token ht).2

private theorem Automaton.Passes.split
    (hp : Automaton.Passes .start (Cursor.start tokens) automaton cursor) :
    ∃ read, tokens = read ++ cursor.unread ∧ cursor.position = read.length ∧
      Automaton.start.pass? read = some automaton := by
  obtain ⟨read, hunread, hposition, hpass⟩ := hp
  exact ⟨read, hunread, hposition.trans (Nat.zero_add _), hpass⟩

private theorem Automaton.Passes.mem_unread
    (hp : Automaton.Passes .start (Cursor.start tokens) automaton cursor)
    (hle : cursor.position ≤ index) (ht : tokens[index]? = some token) : token ∈ cursor.unread := by
  obtain ⟨read, hsplit, hposition, -⟩ := hp.split
  rw [hsplit, List.getElem?_append_right (hposition ▸ hle)] at ht
  exact List.mem_of_getElem? ht

private theorem stuckAt_length (hp : Automaton.Passes .start (Cursor.start tokens) automaton cursor)
    (hn : cursor.next? = none) : StuckAt tokens tokens.length automaton := by
  obtain ⟨read, hsplit, -, hpass⟩ := hp.split
  constructor
  case le => exact Nat.le_refl _
  case passed =>
    rw [List.take_length, hsplit, Automaton.pass?_append, hpass]
    exact Automaton.pass?_of_comments (Cursor.isComment_of_next?_none hn)
  case stuck =>
    intro token ht
    rw [List.getElem?_length] at ht
    cases ht

private theorem exists_stuckAt (hp : Automaton.Passes .start (Cursor.start tokens) automaton cursor)
    (hn : cursor.next? = some (token, after)) (hs : automaton.step? token = none) :
    ∃ index, StuckAt tokens index automaton ∧ tokens[index]? = some token ∧
      after.position = index + 1 ∧
      IsLeast {i | cursor.position ≤ i ∧ ∃ token, tokens[i]? = some token ∧ ¬ token.isComment}
        index := by
  obtain ⟨read, hsplit, hposition, hpass⟩ := hp.split
  obtain ⟨comments, hcomments, hc, hnext, hafter⟩ := Cursor.unread_of_next? hn
  -- the index is behind what the automaton has passed and the comments that follow
  have hlength : (read ++ comments).length = read.length + comments.length := List.length_append
  have htokens : tokens = (read ++ comments) ++ token :: after.unread := by
    rw [List.append_assoc, ← hnext, hsplit]
  have htoken : tokens[(read ++ comments).length]? = some token := by
    rw [htokens, List.getElem?_append_right (Nat.le_refl _), Nat.sub_self]
    rfl
  refine ⟨(read ++ comments).length, ⟨?_, ?_, ?_⟩, htoken, ?_, ⟨?_, token, htoken, hc⟩, ?_⟩
  · exact Nat.le_of_lt (List.getElem?_eq_some_iff.mp htoken).1
  · rw [htokens, List.take_left, Automaton.pass?_append, hpass]
    exact Automaton.pass?_of_comments hcomments
  · intro other ho
    cases htoken.symm.trans ho
    exact ⟨hc, hs⟩
  · rw [hafter, hposition, hlength]
  · rw [hposition, hlength]
    exact Nat.le_add_right _ _
  · rintro i ⟨hle, other, ho, hco⟩
    by_contra hlt
    rw [htokens, List.getElem?_append_left (Nat.lt_of_not_le hlt),
      List.getElem?_append_right (hposition ▸ hle)] at ho
    exact hco (hcomments other (List.mem_of_getElem? ho))

private theorem recognize_halts (tokens : List Token) : Automaton.start.Halts (Cursor.start tokens)
    (recognize tokens).verdict (recognize tokens).cursor :=
  Reading.halts.2.1 (Cursor.start tokens) false

theorem exists_rejectedAt (h : (recognize tokens).verdict = .rejected failure) :
    ∃ index automaton, StuckAt tokens index automaton ∧ RejectedAt tokens failure index := by
  have hh := recognize_halts tokens
  rw [h] at hh
  generalize he : (recognize tokens).cursor = after at hh
  cases hh with
  | refused passes found stuck leave =>
    obtain ⟨index, hi, ht, hposition, -⟩ := exists_stuckAt passes found stuck
    rw [← he] at hposition
    exact ⟨index, _, hi, .token h (Automaton.reason_of_leave leave) ht hposition⟩
  | ended passes none leave =>
    exact ⟨tokens.length, _, stuckAt_length passes none,
      .ended h (Automaton.reason_of_leave leave)⟩

private theorem RejectedAt.verdict (h : RejectedAt tokens failure index) :
    (recognize tokens).verdict = .rejected failure := by
  cases h <;> assumption

private theorem RejectedAt.unique (h : RejectedAt tokens failure index)
    (h' : RejectedAt tokens failure other) : index = other := by
  cases h with
  | token _ reason _ position =>
    cases h' with
    | token _ _ _ position' => exact Nat.succ.inj (position.symm.trans position')
    | ended _ reason' => cases reason.symm.trans reason'
  | ended _ reason =>
    cases h' with
    | token _ reason' => cases reason.symm.trans reason'
    | ended => rfl

/-- Tokens are rejected where the automaton is stuck with a rejection. -/
theorem rejectedAt_iff : RejectedAt tokens failure index ↔ ∃ automaton,
    StuckAt tokens index automaton ∧
      automaton.leave (Reason.at tokens index) = .rejected failure := by
  constructor
  · intro h
    obtain ⟨other, automaton, hs, hr⟩ := exists_rejectedAt h.verdict
    cases h.unique hr
    exact ⟨automaton, hs, hs.verdict.symm.trans h.verdict⟩
  · rintro ⟨automaton, hs, hl⟩
    obtain ⟨other, next, hs', hr⟩ := exists_rejectedAt (hs.verdict.trans hl)
    obtain ⟨rfl, -⟩ := hs.unique hs'
    exact hr

private theorem RejectedAt.reason_eq_at (h : RejectedAt tokens failure index) :
    failure.reason = Reason.at tokens index := by
  obtain ⟨automaton, -, hl⟩ := rejectedAt_iff.mp h
  exact Automaton.reason_of_leave hl

/-- An accepted reading stops at the first token left behind it, which is no operator, or at the end. -/
theorem exists_stuckAt_of_accepted (h : (recognize tokens).verdict = .accepted) :
    ∃ index, StuckAt tokens index ⟨.operator, false⟩ ∧
      (IsLeast {index | UnreadAt tokens index} index ∨
        index = tokens.length ∧ ∀ other, ¬ UnreadAt tokens other) := by
  have hh := recognize_halts tokens
  have ht : (recognize tokens).cursor.accept? .operator = none :=
    (Reading.simulated.2.1 (Cursor.start tokens)).2 h
  rw [h] at hh
  cases hh with
  | accepted passes =>
    cases hn : (recognize tokens).cursor.next? with
    | none =>
      refine ⟨tokens.length, stuckAt_length passes hn, .inr ⟨rfl, ?_⟩⟩
      rintro other ⟨hle, token, ht, hc⟩
      exact hc (Cursor.isComment_of_next?_none hn token (passes.mem_unread hle ht))
    | some found =>
      obtain ⟨token, after⟩ := found
      have hk : token.kind ≠ .operator := Cursor.kind_ne_of_accept?_none ht hn
      have hstop : (Automaton.mk .operator false).step? token = none := by
        simp [Automaton.step?, hk]
      obtain ⟨index, hs, -, -, hleast⟩ := exists_stuckAt passes hn hstop
      exact ⟨index, hs, .inl hleast⟩

theorem stuckAt_of_accepted (h : (recognize tokens).verdict = .accepted)
    (hu : IsLeast {index | UnreadAt tokens index} index) :
    StuckAt tokens index ⟨.operator, false⟩ := by
  obtain ⟨other, hs, hleast | ⟨-, hnone⟩⟩ := exists_stuckAt_of_accepted h
  · cases hu.unique hleast
    exact hs
  · exact (hnone index hu.1).elim

/-- A verdict is settled by the tokens that have been read. What is rejected at a token is rejected
whatever comes behind it. Where the end was reached too soon, more tokens can be rejected behind the
end only. What is accepted in front of a token is accepted with any tokens behind that one. -/
theorem recognize_settled (tokens : List Token) :
    (∀ failure token, (recognize tokens).verdict = .rejected failure →
      failure.reason = .unexpectedToken token →
      ∃ index, RejectedAt tokens failure index ∧ tokens[index]? = some token ∧
        ∀ others, AgreeThrough tokens others index → RejectedAt others failure index) ∧
    (∀ failure, (recognize tokens).verdict = .rejected failure → failure.reason = .unexpectedEnd →
      ∀ others, tokens <+: others →
        ∀ laterFailure index, RejectedAt others laterFailure index → tokens.length ≤ index) ∧
    ((recognize tokens).verdict = .accepted →
      ∀ index, IsLeast {index | UnreadAt tokens index} index →
        ∃ token, tokens[index]? = some token ∧ token.kind ≠ .operator ∧
          ∀ others, AgreeThrough tokens others index →
            (recognize others).verdict = .accepted) := by
  refine ⟨?_, ?_, ?_⟩
  · intro failure token hv hr
    obtain ⟨index, automaton, hs, hat⟩ := exists_rejectedAt hv
    have ht : tokens[index]? = some token :=
      Reason.at_eq_unexpectedToken_iff.mp (hat.reason_eq_at.symm.trans hr)
    refine ⟨index, hat, ht, ?_⟩
    intro others ha
    have hsame : Reason.at others index = Reason.at tokens index := by
      rw [Reason.at, Reason.at, ha index (Nat.le_refl _)]
    refine rejectedAt_iff.mpr ⟨automaton, hs.of_agreeThrough ht ha, ?_⟩
    rw [hsame, ← hs.verdict, hv]
  · intro failure hv hr others hprefix laterFailure index hlater
    obtain ⟨last, automaton, hs, hat⟩ := exists_rejectedAt hv
    have hend : last = tokens.length := Nat.le_antisymm hs.le
      (Reason.at_eq_unexpectedEnd_iff.mp (hat.reason_eq_at.symm.trans hr))
    have hpassed : Automaton.start.pass? (others.take tokens.length) = some automaton := by
      rw [← List.prefix_iff_eq_take.mp hprefix, ← hs.passed, hend, List.take_length]
    obtain ⟨next, hnext, -⟩ := rejectedAt_iff.mp hlater
    exact hnext.le_of_pass? hprefix.length_le hpassed
  · intro hv index hu
    have hs := stuckAt_of_accepted hv hu
    obtain ⟨-, token, ht, -⟩ := hu.1
    refine ⟨token, ht, ?_, ?_⟩
    · intro hk
      have hstop := (hs.stuck token ht).2
      simp [Automaton.step?, hk] at hstop
    · intro others ha
      exact (hs.of_agreeThrough ht ha).verdict

/-- Settled by the second operator, not yet settled, and settled by the second name. In each case a
comment stands in front of what comes next. -/
theorem recognize_settled_comments :
    (∃ index, RejectedAt [⟨.identifier, "x"⟩, ⟨.operator, "+"⟩, ⟨.comment, "// c"⟩,
        ⟨.operator, "*"⟩, ⟨.int, "1"⟩] ⟨.term, .unexpectedToken ⟨.operator, "*"⟩⟩ index ∧
      ∀ others, AgreeThrough [⟨.identifier, "x"⟩, ⟨.operator, "+"⟩, ⟨.comment, "// c"⟩,
        ⟨.operator, "*"⟩, ⟨.int, "1"⟩] others index →
          RejectedAt others ⟨.term, .unexpectedToken ⟨.operator, "*"⟩⟩ index) ∧
    (RejectedAt [⟨.operator, "("⟩, ⟨.identifier, "x"⟩, ⟨.comment, "// c"⟩, ⟨.identifier, "y"⟩]
        ⟨.parenthesisEnd, .unexpectedToken ⟨.identifier, "y"⟩⟩ 3 ∧
      [(⟨.operator, "("⟩ : Token), ⟨.identifier, "x"⟩, ⟨.comment, "// c"⟩].length ≤ 3) ∧
    (IsLeast {index | UnreadAt [⟨.identifier, "x"⟩, ⟨.comment, "// c"⟩, ⟨.identifier, "y"⟩] index}
        2 ∧
      ∀ others, AgreeThrough [⟨.identifier, "x"⟩, ⟨.comment, "// c"⟩, ⟨.identifier, "y"⟩] others 2 →
        (recognize others).verdict = .accepted) := by
  refine ⟨?_, ?_, ?_⟩
  · obtain ⟨index, hat, -, hsame⟩ := (recognize_settled [⟨.identifier, "x"⟩, ⟨.operator, "+"⟩,
      ⟨.comment, "// c"⟩, ⟨.operator, "*"⟩, ⟨.int, "1"⟩]).1
      ⟨.term, .unexpectedToken ⟨.operator, "*"⟩⟩ _ ((recognize_verdict _).trans (by decide)) rfl
    exact ⟨index, hat, hsame⟩
  · have hat : RejectedAt [⟨.operator, "("⟩, ⟨.identifier, "x"⟩, ⟨.comment, "// c"⟩,
        ⟨.identifier, "y"⟩] ⟨.parenthesisEnd, .unexpectedToken ⟨.identifier, "y"⟩⟩ 3 :=
      .token ((recognize_verdict _).trans (by decide)) rfl rfl (by cbv)
    exact ⟨hat, (recognize_settled [⟨.operator, "("⟩, ⟨.identifier, "x"⟩, ⟨.comment, "// c"⟩]).2.1
      ⟨.parenthesisEnd, .unexpectedEnd⟩ ((recognize_verdict _).trans (by decide)) rfl _
      (by decide) _ _ hat⟩
  · have hposition : (recognize [⟨.identifier, "x"⟩, ⟨.comment, "// c"⟩,
        ⟨.identifier, "y"⟩]).cursor.position = 1 := by cbv
    have hleast : IsLeast {index | UnreadAt [⟨.identifier, "x"⟩, ⟨.comment, "// c"⟩,
        ⟨.identifier, "y"⟩] index} 2 := by
      refine ⟨⟨hposition ▸ Nat.le_succ 1, _, rfl, by decide⟩, ?_⟩
      rintro index ⟨hle, token, ht, hc⟩
      rw [hposition] at hle
      by_contra hlt
      obtain rfl : index = 1 := Nat.le_antisymm (Nat.le_of_lt_succ (Nat.lt_of_not_le hlt)) hle
      cases ht
      exact hc rfl
    obtain ⟨token, -, -, hsame⟩ := (recognize_settled [⟨.identifier, "x"⟩, ⟨.comment, "// c"⟩,
      ⟨.identifier, "y"⟩]).2.2 ((recognize_verdict _).trans (by decide)) 2 hleast
    exact ⟨hleast, hsame⟩

end ExprScan
