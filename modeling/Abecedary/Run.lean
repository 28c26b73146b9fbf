/-!
# Runs

A machine is given by a step, which leads from a state to another state or ends the run with a
result. `runFor` takes a bounded number of steps; a run that has not ended by then has no result
yet, and more steps never change a result (`runFor_mono`).
-/

namespace Abecedary

/-- What a step leads to. -/
inductive Progress (σ ρ : Type) where
  /-- The run goes on in another state. -/
  | next (s : σ)
  /-- The run has ended. -/
  | done (r : ρ)

variable {σ ρ : Type}

/-- The result of a run that ends within `n` steps. -/
@[specialize] def runFor (step : σ → Progress σ ρ) : (n : Nat) → (s : σ) → Option ρ
  | 0, _ => none
  | n + 1, s =>
    match step s with
    | .next s => runFor step n s
    | .done r => some r

theorem runFor_mono {step : σ → Progress σ ρ} {m n : Nat} {s : σ} {r : ρ} (hmn : m ≤ n)
    (h : runFor step m s = some r) : runFor step n s = some r := by
  induction m generalizing n s with
  | zero => simp [runFor] at h
  | succ m ih =>
    obtain ⟨n, rfl⟩ : ∃ k, n = k + 1 := ⟨n - 1, by omega⟩
    rw [runFor] at h ⊢
    split at h
    · exact ih (by omega) h
    · exact h

end Abecedary
