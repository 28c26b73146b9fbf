import Abecedary.Proofs.StackDiscipline

/-!
# Code that passes a linear sweep

A code of any origin can be checked before it is run: its listing succeeds, and every jump in the
listing goes to a listed address or past the end (`Code.Checked`). That is enough for the decoder.
Behind a listed instruction lies a listed one or the end (`Code.Checked.next`), so every step leads
from a boundary of the listing to a boundary, and a run stays on boundaries however long it goes on
(`Machine.onBoundary_of_steps`). It can still run past the end or out of values, but it meets no
bytes that do not decode (`linear_sweep_is_sound`).
-/

namespace Abecedary

open Instr

namespace Code

/-- The listing has an instruction at the address. -/
def Listed (es : List (Nat × Instr)) (a : Nat) : Prop := ∃ i, (a, i) ∈ es

/-- The address is that of a listed instruction, or lies behind the code. -/
def OnBoundary (c : Code) (es : List (Nat × Instr)) (a : Nat) : Prop := Listed es a ∨ c.size ≤ a

/-- The code is listed as `es`, and every jump in the listing goes to a boundary. -/
structure Checked (c : Code) (es : List (Nat × Instr)) : Prop where
  instructions : c.instructions = .ok es
  jumps : ∀ {a i target}, (a, i) ∈ es → i.target? = some target → c.OnBoundary es target.toNat

variable {c : Code} {es : List (Nat × Instr)} {a b : Nat} {i : Instr}

/-- A walk begins at its first entry, or ends where it begins. -/
theorem Walk.listed_or_eq (h : c.Walk a es b) : Listed es a ∨ a = b := by
  cases h with
  | nil => exact .inr rfl
  | cons _ _ => exact .inl ⟨_, List.mem_cons_self⟩

/-- An entry of a walk decodes, and behind it lies the next entry or the end of the walk. -/
theorem Walk.exists_next (h : c.Walk a es b) {x : Nat} (hx : (x, i) ∈ es) :
    ∃ n, c.decodeAt x = .ok (i, n) ∧ (Listed es n ∨ n = b) := by
  induction h with
  | nil => cases hx
  | cons hdecode rest ih =>
    have hlater {n : Nat} {e : Nat × Instr} {es : List (Nat × Instr)} :
        Listed es n → Listed (e :: es) n := fun ⟨j, hj⟩ => ⟨j, List.mem_cons_of_mem _ hj⟩
    rcases List.mem_cons.1 hx with hx | hx
    · cases hx
      exact ⟨_, hdecode, rest.listed_or_eq.imp_left hlater⟩
    · obtain ⟨n, hn, hnext⟩ := ih hx
      exact ⟨n, hn, hnext.imp_left hlater⟩

namespace Checked

/-- The first instruction, if there is one, is listed. -/
theorem start (h : c.Checked es) : c.OnBoundary es 0 :=
  (instructions_eq_ok_iff.1 h.instructions).listed_or_eq.imp_right fun h => h.ge

/-- **A listed instruction decodes, and behind it lies a boundary.** -/
theorem next (h : c.Checked es) (ha : (a, i) ∈ es) :
    ∃ n, c.decodeAt a = .ok (i, n) ∧ c.OnBoundary es n := by
  obtain ⟨n, hn, hnext⟩ := (instructions_eq_ok_iff.1 h.instructions).exists_next ha
  exact ⟨n, hn, hnext.imp_right fun h => h.ge⟩

end Checked

end Code

namespace Machine

variable {c : Code} {es : List (Nat × Instr)} {s t : Machine}

theorem step_of_size_le (h : c.size ≤ s.address) : step c s = .done (.error .missingHalt) :=
  if_pos h

/-- On a boundary the machine has come past the end, or executes a listed instruction, behind which
lies a boundary. -/
theorem effect_of_onBoundary (h : c.Checked es) (hs : c.OnBoundary es s.address) :
    c.size ≤ s.address ∨
      ∃ i n, (s.address, i) ∈ es ∧ c.OnBoundary es n ∧ Effect i n s (step c s) := by
  rcases hs with ⟨i, hi⟩ | hend
  · obtain ⟨n, hdecode, hn⟩ := h.next hi
    refine .inr ⟨i, n, hi, hn, ?_⟩
    rw [step, if_neg (Nat.not_le.2 (Code.lt_size_of_decodeAt hdecode)), hdecode]
    exact effect_execute i n s
  · exact .inl hend

/-- **Every step leads from a boundary to a boundary.** -/
theorem onBoundary_of_step (h : c.Checked es) (hs : c.OnBoundary es s.address)
    (ht : step c s = .next t) : c.OnBoundary es t.address := by
  obtain hend | ⟨i, n, hi, hn, heffect⟩ := effect_of_onBoundary h hs
  · rw [step_of_size_le hend] at ht
    cases ht
  · rw [ht] at heffect
    cases heffect with
    | passes _ address _ => exact address ▸ hn
    | jumps htarget address _ => exact address ▸ h.jumps hi htarget

/-- **A run stays on boundaries.** -/
theorem onBoundary_of_steps (h : c.Checked es) {n : Nat} (hs : Steps (step c) n start s) :
    c.OnBoundary es s.address :=
  hs.preserves (P := fun s => c.OnBoundary es s.address)
    (fun _ _ hs ht => onBoundary_of_step h hs ht) h.start

/-- How a run can end on a boundary. -/
inductive EndsOn (c : Code) (es : List (Nat × Instr)) (s : Machine) :
    Except MachineError Store → Prop
  | halted (store : Store) : EndsOn c es s (.ok store)
  | faulted (f : Fault) : EndsOn c es s (.error (.fault f))
  | underflow (h : Code.Listed es s.address) : EndsOn c es s (.error (.stackUnderflow s.address))
  | ranOut (h : c.size ≤ s.address) : EndsOn c es s (.error .missingHalt)

theorem endsOn_of_step (h : c.Checked es) (hs : c.OnBoundary es s.address)
    {r : Except MachineError Store} (hr : step c s = .done r) : EndsOn c es s r := by
  obtain hend | ⟨i, n, hi, -, heffect⟩ := effect_of_onBoundary h hs
  · rw [step_of_size_le hend] at hr
    cases hr
    exact .ranOut hend
  · rw [hr] at heffect
    cases heffect with
    | halts => exact .halted _
    | faults f => exact .faulted f
    | underflows => exact .underflow ⟨i, hi⟩

/-- A run that ends does so in a state on a boundary, in one of these ways. -/
theorem exists_endsOn_of_run (h : c.Checked es) {n : Nat} {r : Except MachineError Store}
    (hr : run c n = some r) : ∃ m s, Steps (step c) m start s ∧ EndsOn c es s r := by
  obtain ⟨m, s, hs, hdone⟩ := exists_steps_of_runFor hr
  exact ⟨m, s, hs, endsOn_of_step h (onBoundary_of_steps h hs) hdone⟩

end Machine

/-- **The linear sweep is sound for code of any origin.** Where a code can be listed and its jumps
go to listed addresses or past its end, a run is at a listed address or past the end at every
moment. It never meets bytes that do not decode, it ends for want of `halt` exactly when it comes
past the end, and it runs out of values at listed addresses only. -/
theorem linear_sweep_is_sound {c : Code} {es : List (Nat × Instr)}
    (hlisting : c.instructions = .ok es)
    (hjumps : ∀ a i target, (a, i) ∈ es → i.target? = some target →
      Code.Listed es target.toNat ∨ c.size ≤ target.toNat) :
    (∀ n s, Steps (Machine.step c) n .start s → Code.Listed es s.address ∨ c.size ≤ s.address) ∧
    (∀ n e, Machine.run c n ≠ some (.error (.decode e))) ∧
    ((∃ n, Machine.run c n = some (.error .missingHalt)) ↔
      ∃ n s, Steps (Machine.step c) n .start s ∧ c.size ≤ s.address) ∧
    ∀ n a, Machine.run c n = some (.error (.stackUnderflow a)) → Code.Listed es a := by
  have h : c.Checked es := ⟨hlisting, hjumps _ _ _⟩
  refine ⟨fun n s hs => Machine.onBoundary_of_steps h hs, fun n e hr => ?_, ⟨?_, ?_⟩,
    fun n a hr => ?_⟩
  · obtain ⟨_, _, _, hends⟩ := Machine.exists_endsOn_of_run h hr
    cases hends
  · rintro ⟨n, hr⟩
    obtain ⟨m, s, hs, hends⟩ := Machine.exists_endsOn_of_run h hr
    cases hends with
    | ranOut hend => exact ⟨m, s, hs, hend⟩
  · rintro ⟨n, s, hs, hend⟩
    exact hs.finishes (finishes_of_done (Machine.step_of_size_le hend))
  · obtain ⟨_, _, _, hends⟩ := Machine.exists_endsOn_of_run h hr
    cases hends with
    | underflow hlisted => exact hlisted

/-- The theorem at a code that no program has: it loops, it jumps past its end, and the instruction
behind the loop finds no value when the loop has ended. -/
theorem linear_sweep_is_sound_of_wild_jumps :
    let is : List Instr := [.fetch ⟨0⟩, .jumpIfZero 12, .jump 0, .jumpIfNonZero 4096]
    let c : Code := ⟨(encodeAll is).toArray⟩
    c.instructions = .ok (placed 0 is) ∧
      (∀ a i target, (a, i) ∈ placed 0 is → i.target? = some target →
        Code.Listed (placed 0 is) target.toNat ∨ c.size ≤ target.toNat) ∧
      (∀ n e, Machine.run c n ≠ some (.error (.decode e))) ∧
      Machine.run c 3 = some (.error (.stackUnderflow 12)) ∧ Code.Listed (placed 0 is) 12 := by
  intro is c
  have hlisting : c.instructions = .ok (placed 0 is) :=
    Code.instructions_eq_placed_iff.2 ⟨by simp [is, Instr.Encodable], by simp [c]⟩
  have hplaced : placed 0 is =
      [(0, .fetch ⟨0⟩), (2, .jumpIfZero 12), (7, .jump 0), (12, .jumpIfNonZero 4096)] := rfl
  have hjumps : ∀ a i target, (a, i) ∈ placed 0 is → i.target? = some target →
      Code.Listed (placed 0 is) target.toNat ∨ c.size ≤ target.toNat := by
    intro a i target hi ht
    rw [hplaced] at hi ⊢
    simp only [List.mem_cons, Prod.mk.injEq, List.not_mem_nil, or_false] at hi
    rcases hi with ⟨-, rfl⟩ | ⟨-, rfl⟩ | ⟨-, rfl⟩ | ⟨-, rfl⟩ <;> cases ht
    · exact .inl ⟨.jumpIfNonZero 4096, by decide⟩
    · exact .inl ⟨.fetch ⟨0⟩, by decide⟩
    · exact .inr (by decide)
  have hrun : Machine.run c 3 = some (.error (.stackUnderflow 12)) := by decide
  obtain ⟨-, hdecodes, -, hunder⟩ := linear_sweep_is_sound hlisting hjumps
  exact ⟨hlisting, hjumps, hdecodes, hrun, hunder 3 12 hrun⟩

end Abecedary
