import Mathlib.Tactic.Cases

/-!
# Machines that answer

A machine takes an input, answers it and changes its state. Two machines whose steps keep a
relation between their states and answer alike do so over whole runs.
-/

namespace Machines

variable {σ τ ι ο : Type}

/-- The inputs in order: the final state, and the answers. -/
def run (step : σ → ι → σ × ο) (s : σ) : List ι → σ × List ο
  | [] => (s, [])
  | i :: is =>
    let next := step s i
    let rest := run step next.1 is
    (rest.1, next.2 :: rest.2)

@[simp] theorem run_nil (step : σ → ι → σ × ο) (s : σ) : run step s [] = (s, []) := rfl

/-- The outputs of a run are that of its first step and those of the rest. -/
theorem run_cons (step : σ → ι → σ × ο) (s : σ) (i : ι) (is : List ι) :
    run step s (i :: is)
      = ((run step (step s i).1 is).1, (step s i).2 :: (run step (step s i).1 is).2) := rfl

/-- A relation that every step keeps, with equal answers, is kept by every run, with equal
answers. -/
theorem run_related {step : σ → ι → σ × ο} {step' : τ → ι → τ × ο} {R : σ → τ → Prop}
    (hstep : ∀ s t i, R s t → R (step s i).1 (step' t i).1 ∧ (step s i).2 = (step' t i).2)
    {s : σ} {t : τ} (h : R s t) (is : List ι) :
    R (run step s is).1 (run step' t is).1 ∧ (run step s is).2 = (run step' t is).2 := by
  induction is generalizing s t with
  | nil => exact ⟨h, rfl⟩
  | cons i is ih =>
    obtain ⟨hnext, hanswer⟩ := hstep s t i h
    obtain ⟨hrest, hanswers⟩ := ih hnext
    rw [run_cons, run_cons, hanswer, hanswers]
    exact ⟨hrest, rfl⟩

end Machines
