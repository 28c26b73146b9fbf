import Abecedary.Run

/-!
# Simulating one machine by another

`Steps step n s t` says that `n` steps lead from the state `s` to the state `t`. A machine
simulates another when every step of the other is matched by some of its own, related states
leading to related states, and a step that is matched by none makes a weight smaller. Both then
end with the same results (`finishes_iff_of_simulates`): the weight is what keeps the simulated
machine from running on while the other stands still.
-/

namespace Abecedary

variable {σ τ ρ ρ' : Type}

/-- `n` steps lead from one state to another. -/
inductive Steps (step : σ → Progress σ ρ) : Nat → σ → σ → Prop
  | refl (s : σ) : Steps step 0 s s
  | head {n : Nat} {s t u : σ} (h : step s = .next t) (rest : Steps step n t u) :
    Steps step (n + 1) s u

namespace Steps

variable {step : σ → Progress σ ρ}

theorem one {s t : σ} (h : step s = .next t) : Steps step 1 s t := .head h (.refl t)

theorem trans {m n : Nat} {s t u : σ} (h₁ : Steps step m s t) (h₂ : Steps step n t u) :
    Steps step (m + n) s u := by
  induction h₁ with
  | refl s => simpa using h₂
  | head h _ ih => rw [Nat.add_right_comm]; exact .head h (ih h₂)

/-- A run goes on from the state that some steps lead to. -/
theorem runFor_add {m : Nat} {s t : σ} (h : Steps step m s t) (n : Nat) :
    runFor step (m + n) s = runFor step n t := by
  induction h with
  | refl s => rw [Nat.zero_add]
  | head h _ ih => rw [Nat.add_right_comm, runFor, h]; exact ih

/-- A run that ends within some steps ends within fewer from a state on the way. -/
theorem runFor_of_runFor {m n : Nat} {s t : σ} {r : ρ} (h : Steps step m s t)
    (hr : runFor step n s = some r) : runFor step (n - m) t = some r := by
  rcases Nat.le_total m n with hmn | hmn
  · rw [← h.runFor_add, Nat.add_sub_cancel' hmn]
    exact hr
  · -- so few steps do not even lead as far as `t`, where the run has not ended
    have h' := h.runFor_add 0
    rw [Nat.add_zero, runFor_mono hmn hr, runFor] at h'
    cases h'

end Steps

/-- What every step preserves holds in all states that a run reaches. -/
theorem Steps.preserves {step : σ → Progress σ ρ} {P : σ → Prop}
    (hstep : ∀ s t, P s → step s = .next t → P t) {n : Nat} {s t : σ} (h : Steps step n s t)
    (hs : P s) : P t := by
  induction h with
  | refl s => exact hs
  | head h _ ih => exact ih (hstep _ _ hs h)

/-- A run ends with a result: some number of steps suffices. -/
def Finishes (step : σ → Progress σ ρ) (s : σ) (r : ρ) : Prop := ∃ n, runFor step n s = some r

theorem Steps.finishes {step : σ → Progress σ ρ} {n : Nat} {s t : σ} {r : ρ}
    (h : Steps step n s t) (hr : Finishes step t r) : Finishes step s r := by
  obtain ⟨m, hm⟩ := hr
  exact ⟨n + m, by rw [h.runFor_add, hm]⟩

/-- A run ends as it does from the state that its first step leads to. -/
theorem finishes_iff_of_next {step : σ → Progress σ ρ} {s t : σ} {r : ρ} (h : step s = .next t) :
    Finishes step s r ↔ Finishes step t r := by
  refine ⟨fun ⟨n, hn⟩ => ?_, (Steps.one h).finishes⟩
  exact ⟨n - 1, (Steps.one h).runFor_of_runFor hn⟩

theorem finishes_of_done {step : σ → Progress σ ρ} {s : σ} {r : ρ} (h : step s = .done r) :
    Finishes step s r := ⟨1, by rw [runFor, h]⟩

theorem runFor_of_done {step : σ → Progress σ ρ} {n : Nat} {s : σ} {r r' : ρ}
    (h : step s = .done r) (hr : runFor step n s = some r') : r' = r := by
  cases n with
  | zero => cases hr
  | succ n => rw [runFor, h] at hr; exact (Option.some.inj hr).symm

/-- A run that ends with a result does so in a state that it reaches. -/
theorem exists_steps_of_runFor {step : σ → Progress σ ρ} {n : Nat} {s : σ} {r : ρ}
    (h : runFor step n s = some r) : ∃ m t, Steps step m s t ∧ step t = .done r := by
  induction n generalizing s with
  | zero => cases h
  | succ n ih =>
    rw [runFor] at h
    cases hs : step s with
    | next t =>
      rw [hs] at h
      obtain ⟨m, u, hm, hu⟩ := ih h
      exact ⟨m + 1, u, .head hs hm, hu⟩
    | done r' =>
      rw [hs] at h
      cases h
      exact ⟨0, s, .refl s, hs⟩

/-- A run goes on for ever when it ends with no result. -/
theorem forall_runFor_eq_none_iff {step : σ → Progress σ ρ} {s : σ} :
    (∀ n, runFor step n s = none) ↔ ∀ r, ¬ Finishes step s r := by
  simp only [Finishes, not_exists, Option.eq_none_iff_forall_ne_some]
  exact forall_comm

/-- How the second machine, in the state `t`, answers a step of the first. -/
inductive Answers (step : τ → Progress τ ρ') (f : ρ → ρ') (R : σ → τ → Prop) (weight : σ → Nat)
    (s : σ) (t : τ) : Progress σ ρ → Prop
  /-- The first machine goes on, and so does the second unless the weight drops. -/
  | next {n : Nat} {s' : σ} {t' : τ} (steps : Steps step n t t') (related : R s' t')
    (drops : n = 0 → weight s' < weight s) : Answers step f R weight s t (.next s')
  /-- The first machine ends, and so does the second with the corresponding result. -/
  | done {n : Nat} {t' : τ} {r : ρ} (steps : Steps step n t t') (ends : step t' = .done (f r)) :
    Answers step f R weight s t (.done r)

section Simulation

variable {step₁ : σ → Progress σ ρ} {step₂ : τ → Progress τ ρ'} {f : ρ → ρ'} {R : σ → τ → Prop}
  {weight : σ → Nat}

theorem Finishes.simulated (sim : ∀ s t, R s t → Answers step₂ f R weight s t (step₁ s)) {s : σ}
    {t : τ} {r : ρ} (hst : R s t) (h : Finishes step₁ s r) : Finishes step₂ t (f r) := by
  obtain ⟨n, hn⟩ := h
  induction n generalizing s t with
  | zero => cases hn
  | succ n ih =>
    have answer := sim s t hst
    rw [runFor] at hn
    cases hs : step₁ s with
    | next s' =>
      rw [hs] at hn answer
      cases answer with
      | next steps related _ => exact steps.finishes (ih related hn)
    | done r' =>
      rw [hs] at hn answer
      cases Option.some.inj hn
      cases answer with
      | done steps ends => exact steps.finishes (finishes_of_done ends)

theorem Finishes.reflected (sim : ∀ s t, R s t → Answers step₂ f R weight s t (step₁ s)) {s : σ}
    {t : τ} {r' : ρ'} (hst : R s t) (h : Finishes step₂ t r') :
    ∃ r, Finishes step₁ s r ∧ f r = r' := by
  obtain ⟨n, hn⟩ := h
  -- on the steps the second machine still takes, and on the weight where it stands still
  induction n using Nat.strongRecOn generalizing s t with
  | ind n ihn =>
  induction hw : weight s using Nat.strongRecOn generalizing s t with
  | ind w ihw =>
  have answer := sim s t hst
  cases hs : step₁ s with
  | done r =>
    rw [hs] at answer
    cases answer with
    | done steps ends =>
      exact ⟨r, finishes_of_done hs, (runFor_of_done ends (steps.runFor_of_runFor hn)).symm⟩
  | next s' =>
    rw [hs] at answer
    cases answer with
    | @next m _ t' steps related drops =>
      have hrest := steps.runFor_of_runFor hn
      obtain ⟨r, hr, rfl⟩ : ∃ r, Finishes step₁ s' r ∧ f r = r' := by
        rcases Nat.eq_zero_or_pos m with rfl | hm
        · exact ihw _ (hw ▸ drops rfl) related hrest rfl
        · refine ihn (n - m) ?_ related hrest
          cases n with
          | zero => cases hn
          | succ n => omega
      exact ⟨r, (Steps.one hs).finishes hr, rfl⟩

/-- **Simulation preserves and reflects results.** -/
theorem finishes_iff_of_simulates
    (sim : ∀ s t, R s t → Answers step₂ f R weight s t (step₁ s)) {s : σ} {t : τ} (hst : R s t)
    (r' : ρ') : (∃ r, Finishes step₁ s r ∧ f r = r') ↔ Finishes step₂ t r' :=
  ⟨fun ⟨_, hr, e⟩ => e ▸ hr.simulated sim hst, fun h => h.reflected sim hst⟩

end Simulation

end Abecedary
