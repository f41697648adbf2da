import ExprScan.Expression.Plain
import ExprScan.Proofs.Expression.Extent

/-! A cursor gives the answers of a plain index into the tokens that are no comments. Stepping over
comments moves the cursor and leaves its index as it is. -/
namespace ExprScan

variable {tokens : List Token} {token : Token} {cursor after : Cursor}

namespace Cursor

private theorem within_start (tokens : List Token) : (start tokens).Within tokens :=
  ⟨rfl, Nat.zero_le _⟩

/-- A cursor steps over comments only. -/
theorem reads_settle (cursor : Cursor) :
    ∃ comments, cursor.Reads comments cursor.settle ∧ comments.filter (!·.isComment) = [] := by
  refine ⟨cursor.unread.takeWhile Token.isComment, ⟨?_, rfl⟩, ?_⟩
  · exact List.takeWhile_append_dropWhile.symm
  · rw [List.filter_eq_nil_iff]
    intro token hm
    simpa using List.mem_takeWhile_imp hm

/-- A token that is read has comments in front of it. -/
theorem reads_of_next? (h : cursor.next? = some (token, after)) :
    ∃ comments, cursor.Reads (comments ++ [token]) after ∧
      (comments ++ [token]).filter (!·.isComment) = [token] := by
  obtain ⟨comments, hcomments, hc, hunread, hposition⟩ := unread_of_next? h
  refine ⟨comments, ⟨?_, ?_⟩, ?_⟩
  · rw [hunread, List.append_cons]
  · rw [hposition, List.length_append]
    rfl
  · rw [List.filter_append, List.filter_eq_nil_iff.mpr (by simpa using hcomments)]
    simp [hc]

/-- A cursor that reads some tokens goes on by as many as are no comments. -/
theorem Within.forward (h : cursor.Within tokens) {read : List Token}
    (hr : cursor.Reads read after) :
    after.Within tokens ∧
      after.index tokens = cursor.index tokens + (read.filter (!·.isComment)).length := by
  have htokens : tokens = (tokens.take cursor.position ++ read) ++ after.unread := by
    rw [List.append_assoc, ← hr.unread, h.unread, List.take_append_drop]
  have hlength : (tokens.take cursor.position ++ read).length = after.position := by
    rw [List.length_append, List.length_take_of_le h.position_le, hr.position]
  refine ⟨⟨?_, ?_⟩, ?_⟩
  · conv => rhs; rw [htokens]
    exact (List.drop_left' hlength).symm
  · rw [← hlength]
    conv => rhs; rw [htokens]
    exact (List.prefix_append _ _).length_le
  · have htake : tokens.take after.position = tokens.take cursor.position ++ read := by
      conv => lhs; rw [htokens]
      exact List.take_left' hlength
    rw [index, visibleBefore, htake, List.filter_append, List.length_append]
    rfl

private theorem Within.settle (h : cursor.Within tokens) :
    cursor.settle.Within tokens ∧ cursor.settle.index tokens = cursor.index tokens := by
  obtain ⟨comments, hcomments, hnone⟩ := cursor.reads_settle
  have hforward := h.forward hcomments
  rw [hnone] at hforward
  exact hforward

private theorem Within.next? (h : cursor.Within tokens) (hn : cursor.next? = some (token, after)) :
    after.Within tokens ∧ after.index tokens = cursor.index tokens + 1 := by
  obtain ⟨comments, hread, hone⟩ := reads_of_next? hn
  have hforward := h.forward hread
  rw [hone] at hforward
  exact hforward

private theorem Within.getElem?_index (h : cursor.Within tokens) :
    (tokens.filter (!·.isComment))[cursor.index tokens]? = cursor.next?.map Prod.fst := by
  have hdrop : (tokens.filter (!·.isComment)).drop (cursor.index tokens) = cursor.visible := by
    conv => lhs; rw [← List.take_append_drop cursor.position tokens, List.filter_append]
    rw [visible, h.unread]
    exact List.drop_left' (by simp [index, visibleBefore])
  rw [← List.head?_drop, hdrop]
  cases hn : cursor.next? with
  | none =>
    rw [visible_of_next?_none hn]
    rfl
  | some found =>
    obtain ⟨token, after⟩ := found
    rw [visible_of_next? hn]
    rfl

private theorem peek?_eq (cursor : Cursor) : cursor.peek? = cursor.next?.map Prod.fst := by
  rw [peek?, next?]
  cases cursor.settle.unread <;> rfl

end Cursor

/-- A cursor and a plain index stand at the same tokens, and so do all their marks. -/
structure Tracks (tokens : List Token) (state : Backtrack Cursor) (plain : Backtrack Nat) :
    Prop where
  index : plain = state.map (Cursor.index tokens)
  within : ∀ cursor ∈ state.positions, cursor.Within tokens

namespace Tracks

open Cursor

variable {state : Backtrack Cursor} {plain : Backtrack Nat} {i : Nat}

private theorem start (tokens : List Token) :
    Tracks tokens (.start (.start tokens)) (.start 0) := by
  refine ⟨rfl, ?_⟩
  intro cursor hm
  obtain rfl := List.mem_singleton.mp hm
  exact within_start tokens

private theorem move (h : Tracks tokens state plain) (hw : after.Within tokens)
    (hi : after.index tokens = i) :
    Tracks tokens ⟨after, state.marks⟩ ⟨i, plain.marks⟩ := by
  obtain ⟨rfl, hwithin⟩ := h
  subst hi
  refine ⟨rfl, ?_⟩
  intro cursor hm
  rcases List.mem_cons.mp hm with rfl | hm
  · exact hw
  · exact hwithin cursor (List.mem_cons_of_mem _ hm)

private theorem settle (h : Tracks tokens state plain) :
    Tracks tokens ⟨state.current.settle, state.marks⟩ plain := by
  obtain ⟨rfl, hwithin⟩ := h
  obtain ⟨hw, hi⟩ := (hwithin _ List.mem_cons_self).settle
  exact move ⟨rfl, hwithin⟩ hw hi

private theorem next? (h : Tracks tokens state plain) :
    (state.current.settle.next? = none ∧
      (tokens.filter (!·.isComment))[plain.current]? = none) ∨
    ∃ token after, state.current.settle.next? = some (token, after) ∧
      (tokens.filter (!·.isComment))[plain.current]? = some token ∧
      Tracks tokens ⟨after, state.marks⟩ ⟨plain.current + 1, plain.marks⟩ := by
  obtain ⟨rfl, hwithin⟩ := h.settle
  have hw := hwithin _ List.mem_cons_self
  have hlook := hw.getElem?_index
  cases hn : state.current.settle.next? with
  | none =>
    rw [hn] at hlook
    exact .inl ⟨rfl, hlook⟩
  | some found =>
    obtain ⟨token, after⟩ := found
    rw [hn] at hlook
    obtain ⟨ha, hi⟩ := hw.next? hn
    exact .inr ⟨token, after, rfl, hlook, h.move ha hi⟩

private theorem perform (h : Tracks tokens state plain) (move : Move) :
    (Cursor.perform state move).1 =
        (Plain.perform (tokens.filter (!·.isComment)) plain move).1 ∧
      Tracks tokens (Cursor.perform state move).2
        (Plain.perform (tokens.filter (!·.isComment)) plain move).2 := by
  have hstay := h.settle
  cases move with
  | save =>
    obtain ⟨rfl, hwithin⟩ := h
    rw [Plain.perform, Backtrack.map_save]
    exact ⟨rfl, rfl, fun cursor hm => hwithin cursor (Backtrack.mem_positions_save hm)⟩
  | restore =>
    obtain ⟨rfl, hwithin⟩ := h
    rw [Plain.perform, Backtrack.map_restore]
    exact ⟨rfl, rfl, fun cursor hm => hwithin cursor (Backtrack.mem_positions_restore hm)⟩
  | peek =>
    rcases h.next? with ⟨hn, hp⟩ | ⟨token, after, hn, hp, -⟩
    · simpa [Cursor.perform, Plain.perform, peek?_eq, hn, hp] using hstay
    · simpa [Cursor.perform, Plain.perform, peek?_eq, hn, hp] using hstay
  | next =>
    rcases h.next? with ⟨hn, hp⟩ | ⟨token, after, hn, hp, hread⟩
    · simpa [Cursor.perform, Plain.perform, hn, hp] using hstay
    · simpa [Cursor.perform, Plain.perform, hn, hp] using hread
  | accept kind =>
    rcases h.next? with ⟨hn, hp⟩ | ⟨token, after, hn, hp, hread⟩
    · simpa [Cursor.perform, Plain.perform, accept?, hn, hp] using hstay
    · by_cases hk : token.kind = kind
      · simpa [Cursor.perform, Plain.perform, accept?, Option.filter, hn, hp, hk] using hread
      · simpa [Cursor.perform, Plain.perform, accept?, Option.filter, hn, hp, hk] using hstay
  | expect lexeme =>
    rcases h.next? with ⟨hn, hp⟩ | ⟨token, after, hn, hp, hread⟩
    · simpa [Cursor.perform, Plain.perform, expect, hn, hp] using hstay
    · by_cases ho : token.is .operator lexeme
      · simpa [Cursor.perform, Plain.perform, expect, hn, hp, ho] using hread
      · simpa [Cursor.perform, Plain.perform, expect, hn, hp, ho] using hread

/-- What holds after one move holds after all of them. -/
theorem run (h : Tracks tokens state plain) (moves : List Move) :
    Cursor.answers state moves = Plain.answers (tokens.filter (!·.isComment)) plain moves ∧
      ∀ cursor ∈ (Cursor.reach state moves).positions, cursor.Within tokens := by
  induction moves generalizing state plain with
  | nil => exact ⟨rfl, h.within⟩
  | cons move moves ih =>
    obtain ⟨hanswer, hafter⟩ := h.perform move
    obtain ⟨hanswers, hwithin⟩ := ih hafter
    exact ⟨List.cons_eq_cons.mpr ⟨hanswer, hanswers⟩, hwithin⟩

end Tracks

namespace Plain

variable {state : Backtrack Nat}

private theorem perform_accept_comment (h : ∀ token ∈ tokens, ¬ token.isComment) :
    perform tokens state (.accept .comment) = (.token none, state) := by
  cases hp : tokens[state.current]? with
  | none => simp [perform, hp]
  | some token =>
    have hk : token.kind ≠ .comment := by
      simpa [Token.isComment] using h token (List.mem_of_getElem? hp)
    simp [perform, hp, hk]

private theorem answers_insertIdx_accept_comment (h : ∀ token ∈ tokens, ¬ token.isComment)
    (moves : List Cursor.Move) (i : Nat) :
    answers tokens state (moves.insertIdx i (.accept .comment)) =
      (answers tokens state moves).insertIdx i (.token none) := by
  have haccept {state : Backtrack Nat} {moves : List Cursor.Move} :
      answers tokens state (.accept .comment :: moves) =
        .token none :: answers tokens state moves := by
    rw [answers, perform_accept_comment h]
  induction moves generalizing state i with
  | nil =>
    cases i with
    | zero => exact haccept
    | succ i => rfl
  | cons move moves ih =>
    cases i with
    | zero => exact haccept
    | succ i => exact congrArg _ (ih i)

end Plain

/-- A cursor cannot be told from a plain index into the tokens that are no comments. A move that
accepts a comment finds none, wherever it is made, and all other moves are answered as without it.
The cursor and all its marks stay within the tokens. -/
theorem cursor_refines_plain (tokens : List Token) (moves : List Cursor.Move) :
    Cursor.answers (.start (.start tokens)) moves =
      Plain.answers (tokens.filter (!·.isComment)) (.start 0) moves ∧
    (∀ i, Cursor.answers (.start (.start tokens)) (moves.insertIdx i (.accept .comment)) =
      (Cursor.answers (.start (.start tokens)) moves).insertIdx i (.token none)) ∧
    ∀ cursor ∈ (Cursor.reach (.start (.start tokens)) moves).positions,
      cursor.unread = tokens.drop cursor.position ∧ cursor.position ≤ tokens.length := by
  have hstart := Tracks.start tokens
  obtain ⟨hanswers, hwithin⟩ := hstart.run moves
  refine ⟨hanswers, ?_, ?_⟩
  · intro i
    have hplain : ∀ token ∈ tokens.filter (!·.isComment), ¬ token.isComment := by simp
    rw [(hstart.run _).1, hanswers, Plain.answers_insertIdx_accept_comment hplain]
  · intro cursor hm
    exact ⟨(hwithin cursor hm).unread, (hwithin cursor hm).position_le⟩

/-- The mark stands in front of the first comment. The look behind the number goes on to the end. -/
theorem cursor_refines_plain_comments :
    Cursor.answers (.start (.start [⟨.comment, "// a"⟩, ⟨.int, "1"⟩, ⟨.comment, "/* b */"⟩]))
        [.save, .peek, .accept .comment, .next, .peek] =
      [.saved 1, .token (some ⟨.int, "1"⟩), .token none, .token (some ⟨.int, "1"⟩), .token none] ∧
    (⟨[], 3⟩ : Cursor).position ≤
      [(⟨.comment, "// a"⟩ : Token), ⟨.int, "1"⟩, ⟨.comment, "/* b */"⟩].length := by
  obtain ⟨hanswers, -, hwithin⟩ := cursor_refines_plain
    [⟨.comment, "// a"⟩, ⟨.int, "1"⟩, ⟨.comment, "/* b */"⟩]
    [.save, .peek, .accept .comment, .next, .peek]
  exact ⟨hanswers.trans (by decide), (hwithin ⟨[], 3⟩ (by decide)).2⟩

end ExprScan
