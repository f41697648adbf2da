/-! Positions that are kept on a stack and come back one after the other, the latest first. -/
namespace ExprScan

/-- A position together with the earlier ones that were marked and not yet taken back. -/
structure Backtrack (σ : Type) where
  current : σ
  marks : List σ
deriving DecidableEq, Repr

namespace Backtrack

variable {σ τ : Type}

def start (position : σ) : Backtrack σ := ⟨position, []⟩

def save (state : Backtrack σ) : Nat × Backtrack σ :=
  (state.marks.length + 1, ⟨state.current, state.current :: state.marks⟩)

/-- Goes back to the latest mark, if there is one, and gives it up. -/
def restore (state : Backtrack σ) : Bool × Backtrack σ :=
  match state.marks with
  | [] => (false, state)
  | mark :: marks => (true, ⟨mark, marks⟩)

def positions (state : Backtrack σ) : List σ := state.current :: state.marks

def map (f : σ → τ) (state : Backtrack σ) : Backtrack τ := ⟨f state.current, state.marks.map f⟩

theorem map_save (f : σ → τ) (state : Backtrack σ) :
    (state.map f).save = (state.save.1, state.save.2.map f) := by
  simp [save, map]

theorem map_restore (f : σ → τ) (state : Backtrack σ) :
    (state.map f).restore = (state.restore.1, state.restore.2.map f) := by
  cases hm : state.marks <;> simp [restore, map, hm]

theorem mem_positions_save {state : Backtrack σ} {position : σ}
    (h : position ∈ state.save.2.positions) : position ∈ state.positions := by
  simpa [save, positions] using h

theorem mem_positions_restore {state : Backtrack σ} {position : σ}
    (h : position ∈ state.restore.2.positions) : position ∈ state.positions := by
  rw [restore] at h
  split at h
  · exact h
  · next hm =>
    rw [positions, hm]
    exact List.mem_cons_of_mem _ h

end Backtrack

end ExprScan
