import ExprScan.Expression.Placement
import ExprScan.Proofs.Expression.Automaton
import Mathlib.Algebra.Ring.Parity
import Mathlib.Order.Lattice.Nat

/-! Where the automaton stops. As long as no parenthesis is opened it passes the tokens that stand
where they can, and what it says at the first break depends on whether that index is even. -/
namespace ExprScan

def Reason.at (tokens : List Token) (index : Nat) : Reason :=
  match tokens[index]? with
  | some token => .unexpectedToken token
  | none => .unexpectedEnd

variable {tokens : List Token} {token : Token} {index : Nat}

namespace Reason

theorem at_eq_unexpectedToken_iff :
    Reason.at tokens index = .unexpectedToken token ↔ tokens[index]? = some token := by
  rw [Reason.at]
  split <;> simp_all

theorem at_eq_unexpectedEnd_iff :
    Reason.at tokens index = .unexpectedEnd ↔ tokens.length ≤ index := by
  rw [Reason.at, ← List.getElem?_eq_none_iff]
  split <;> simp_all

end Reason

theorem BreakAt.not_standsAt (h : BreakAt tokens index) (ht : tokens[index]? = some token) :
    ¬ token.kind.standsAt index := by
  rcases h with rfl | ⟨other, ho, hs⟩
  · rw [List.getElem?_length] at ht
    cases ht
  · rw [ht] at ho
    cases ho
    exact hs

namespace Automaton

/-- The automaton says what it found where it cannot go on. -/
theorem run_of_stuck {automaton : Automaton} {list : List Token} (hat : list.head? = tokens[index]?)
    (hs : ∀ token, tokens[index]? = some token → automaton.step? token = none) :
    automaton.run list = automaton.leave (Reason.at tokens index) := by
  rw [Reason.at, ← hat]
  cases list with
  | nil => rfl
  | cons token later => exact run_cons_of_none (hs token hat.symm)

/-- The automaton behind `index` tokens that stand where they can. -/
def behind (index : Nat) : Automaton :=
  ⟨if index % 2 = 0 then .term else .operator, false⟩

theorem leave_behind (index : Nat) (reason : Reason) :
    (behind index).leave reason =
      if Even index then .rejected ⟨.term, reason⟩ else .accepted := by
  by_cases h : index % 2 = 0
  · have he : Even index := Nat.even_iff.mpr h
    simp [behind, leave, h, he]
  · have he : ¬ Even index := mt Nat.even_iff.mp h
    simp [behind, leave, h, he]

private theorem step?_behind (h : token.kind.standsAt index) :
    (behind index).step? token = some (behind (index + 1)) := by
  rw [Kind.standsAt] at h
  split at h
  · next he =>
    have hs : (index + 1) % 2 ≠ 0 := by omega
    simp [step?, behind, he, hs, h]
  · next he =>
    have hs : (index + 1) % 2 = 0 := by omega
    simp only [decide_eq_true_eq] at h
    simp [step?, behind, he, hs, h]

private theorem step?_behind_none (h : ¬ token.kind.standsAt index)
    (hp : ¬ token.is .operator "(") : (behind index).step? token = none := by
  rw [Kind.standsAt] at h
  split at h
  · next he => simp only [step?, behind, he, if_true, h, hp, Bool.false_eq_true, if_false]
  · next he =>
    simp only [decide_eq_true_eq] at h
    simp [step?, behind, he, h]

private theorem foldlM_behind (h : ∀ (i : Nat) (token : Token),
      tokens[i]? = some token → token.kind.standsAt (index + i)) :
    tokens.foldlM step? (behind index) = some (behind (index + tokens.length)) := by
  induction tokens generalizing index with
  | nil => rfl
  | cons token later ih =>
    have hlater : ∀ (i : Nat) (other : Token),
        later[i]? = some other → other.kind.standsAt (index + 1 + i) := by
      intro i other ho
      rw [Nat.add_right_comm]
      exact h (i + 1) other ho
    have hfirst : token.kind.standsAt index := h 0 token rfl
    rw [List.foldlM_cons, step?_behind hfirst, List.length_cons, Nat.add_comm later.length,
      ← Nat.add_assoc]
    exact ih hlater

/-- The automaton stops at the first break. -/
theorem run_start_of_isLeast (h : IsLeast {index | BreakAt tokens index} index)
    (hp : ∀ token ∈ tokens, ¬ token.is .operator "(") :
    start.run tokens = (behind index).leave (Reason.at tokens index) := by
  have hle : index ≤ tokens.length := h.2 (.inl rfl)
  have hstands : ∀ (i : Nat) (token : Token),
      (tokens.take index)[i]? = some token → token.kind.standsAt (0 + i) := by
    intro i token ht
    rw [List.getElem?_take] at ht
    obtain ⟨hlt, ht⟩ := Option.ite_none_right_eq_some.mp ht
    rw [Nat.zero_add]
    by_contra hs
    exact Nat.not_lt_of_le (h.2 (.inr ⟨token, ht, hs⟩)) hlt
  have hbefore : (tokens.take index).foldlM step? start = some (behind index) := by
    have hfold := foldlM_behind hstands
    rwa [Nat.zero_add, List.length_take, Nat.min_eq_left hle] at hfold
  have hrun : start.run tokens = (behind index).run (tokens.drop index) := by
    conv => lhs; rw [← List.take_append_drop index tokens]
    exact run_append_of_foldlM hbefore
  rw [hrun]
  apply run_of_stuck List.head?_drop
  intro token ht
  exact step?_behind_none (h.1.not_standsAt ht) (hp token (List.mem_of_getElem? ht))

end Automaton

theorem exists_isLeast_breakAt (tokens : List Token) :
    ∃ index, IsLeast {index | BreakAt tokens index} index := by
  have hn : {index | BreakAt tokens index}.Nonempty := ⟨tokens.length, .inl rfl⟩
  exact ⟨_, Nat.sInf_mem hn, fun _ hb => Nat.sInf_le hb⟩

end ExprScan
