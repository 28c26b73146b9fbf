import Abecedary.Backend
import Abecedary.Proofs.BigStep
import Abecedary.Proofs.StackDiscipline

/-!
# Programs of numbers

A program is one of numbers when it has neither texts nor joins in it (`Stmt.Numeric`). All
variables are numbers at first, and every other operator makes a number of two numbers. So the
invariant of both backends is that all values are numbers (`Evaluation.Numeric`, `Machine.Numeric`):
each step keeps it and none ends with a fault, since a fault blames a text (`Fault.BlamesText`). For
the machine this rests on its instructions being those of the program, where every literal is read
back as the number that it is. Hence such programs never go wrong (`numbers_stay_numbers`).
-/

namespace Abecedary

/-! ## Numbers -/

/-- All variables are numbers. -/
def Store.Numeric (σ : Store) : Prop := ∀ v, (σ.get v).type = .number

/-- All constants of the expression are numbers, and it joins nothing. -/
def Expr.Numeric : Expr → Prop
  | var _ => True
  | constant _ => True
  | text _ => False
  | binary left op right => left.Numeric ∧ op ≠ .concat ∧ right.Numeric
  | assign _ value => value.Numeric

/-- All constants of the statement are numbers, and it joins nothing. -/
def Stmt.Numeric : Stmt → Prop
  | ifThen c t => c.Numeric ∧ t.Numeric
  | ifElse c t e => c.Numeric ∧ t.Numeric ∧ e.Numeric
  | whileDo c b => c.Numeric ∧ b.Numeric
  | doWhile b c => b.Numeric ∧ c.Numeric
  | empty => True
  | seq first second => first.Numeric ∧ second.Numeric
  | expr e => e.Numeric

/-- The operator of the fault joins nothing, and one of its operands is a text. -/
def Fault.BlamesText (f : Fault) : Prop :=
  (f.operator = .add ∨ f.operator = .subtract ∨ f.operator = .less) ∧
    (f.left = .string ∨ f.right = .string)

theorem Value.type_eq_number_iff {x : Value} : x.type = .number ↔ ∃ n, x = .number n := by
  cases x <;> simp [type]

theorem Store.numeric_zero : Store.zero.Numeric := fun v => by rw [get_zero]; rfl

theorem Store.Numeric.set {σ : Store} (hσ : σ.Numeric) (v : Variable) {x : Value}
    (hx : x.type = .number) : (σ.set v x).Numeric := by
  intro w
  rw [get_set]
  split
  · exact hx
  · exact hσ w

/-- **Numbers make numbers**, unless they are joined. -/
theorem Operator.apply_numbers {op : Operator} (hop : op ≠ .concat) {x y : Value}
    (hx : x.type = .number) (hy : y.type = .number) :
    ∃ z, op.apply x y = .ok z ∧ z.type = .number := by
  obtain ⟨m, rfl⟩ := Value.type_eq_number_iff.1 hx
  obtain ⟨n, rfl⟩ := Value.type_eq_number_iff.1 hy
  cases op with
  | concat => exact absurd rfl hop
  | add | subtract | less => exact ⟨_, rfl, rfl⟩

/-- **An operator fails only because of a text.** -/
theorem Operator.blamesText_of_apply {op : Operator} {x y : Value} {f : Fault}
    (h : op.apply x y = .error f) : f.BlamesText := by
  cases op with
  | concat => cases h
  | add | subtract | less =>
    cases x <;> cases y <;> cases h <;> simp [Fault.BlamesText, Value.type]

/-! ## Evaluation -/

/-- **An expression of numbers is a number**, and leaves all variables numbers. -/
theorem Expr.Numeric.yields {e : Expr} (he : e.Numeric) {σ : Store} (hσ : σ.Numeric) :
    ∃ x σ', e.Yields σ (.ok x σ') ∧ x.type = .number ∧ σ'.Numeric := by
  induction e generalizing σ with
  | var v => exact ⟨_, σ, .var v σ, hσ v, hσ⟩
  | constant n => exact ⟨_, σ, .constant n σ, rfl, hσ⟩
  | text s => exact he.elim
  | binary left op right ihl ihr =>
    obtain ⟨hl, hop, hr⟩ := he
    obtain ⟨x, σ', hleft, hx, hσ'⟩ := ihl hl hσ
    obtain ⟨y, σ'', hright, hy, hσ''⟩ := ihr hr hσ'
    obtain ⟨z, hz, htype⟩ := Operator.apply_numbers hop hx hy
    exact ⟨z, σ'', .binary hleft hright hz, htype, hσ''⟩
  | assign target value ih =>
    obtain ⟨x, σ', hvalue, hx, hσ'⟩ := ih he hσ
    exact ⟨x, _, .assign hvalue, hx, hσ'.set target hx⟩

theorem Expr.Yields.blamesText {e : Expr} {σ σ' : Store} {f : Fault}
    (h : e.Yields σ (.error f σ')) : f.BlamesText := by
  generalize hr : EStateM.Result.error f σ' = r at h
  induction h with
  | var | constant | text | assign | binary => cases hr
  | assignFault _ ih | leftFault _ ih => cases hr; exact ih rfl
  | rightFault _ _ _ ih => cases hr; exact ih rfl
  | applyFault _ _ happly => cases hr; exact Operator.blamesText_of_apply happly

theorem Stmt.forall_numeric_itemsBefore {s : Stmt} {others : List Stmt} :
    (∀ t ∈ s.itemsBefore others, t.Numeric) ↔ s.Numeric ∧ ∀ t ∈ others, t.Numeric := by
  induction s generalizing others with
  | seq first second ihf _ => rw [itemsBefore, ihf, List.forall_mem_cons, Numeric, and_assoc]
  | _ => exact List.forall_mem_cons

namespace Evaluation

/-- What is still to be executed has neither texts nor joins in it, and all variables are
numbers. -/
structure Numeric (s : Evaluation) : Prop where
  agenda : ∀ t ∈ s.agenda, t.Numeric
  store : s.store.Numeric

/-- A step leads to numbers again, or ends with them. -/
def KeepsNumeric : Progress Evaluation Outcome → Prop
  | .next s => s.Numeric
  | .done (.finished σ) => σ.Numeric
  | .done (.faulted _ _) => False

theorem keepsNumeric_branch {c : Expr} {σ : Store} {ifTrue ifFalse : List Stmt}
    (hc : c.Numeric) (hσ : σ.Numeric) (htrue : ∀ t ∈ ifTrue, t.Numeric)
    (hfalse : ∀ t ∈ ifFalse, t.Numeric) : KeepsNumeric (branch c σ ifTrue ifFalse) := by
  obtain ⟨x, σ', hx, -, hσ'⟩ := hc.yields hσ
  rw [branch, hx.run_eval]
  refine ⟨?_, hσ'⟩
  dsimp only
  split <;> assumption

/-- **Every step keeps all values numbers.** -/
theorem Numeric.step {s : Evaluation} (h : s.Numeric) : KeepsNumeric (step s) := by
  obtain ⟨_ | ⟨s, agenda⟩, σ⟩ := s
  · exact h.store
  obtain ⟨hall, hσ⟩ := h
  obtain ⟨hs, hagenda⟩ : s.Numeric ∧ ∀ t ∈ agenda, t.Numeric := List.forall_mem_cons.1 hall
  cases s with
  | ifThen c t =>
    exact keepsNumeric_branch hs.1 hσ (List.forall_mem_cons.2 ⟨hs.2, hagenda⟩) hagenda
  | ifElse c t e =>
    exact keepsNumeric_branch hs.1 hσ (List.forall_mem_cons.2 ⟨hs.2.1, hagenda⟩)
      (List.forall_mem_cons.2 ⟨hs.2.2, hagenda⟩)
  | whileDo c b =>
    have hagain := List.forall_mem_cons.2 ⟨hs, hagenda⟩
    exact keepsNumeric_branch hs.1 hσ (List.forall_mem_cons.2 ⟨hs.2, hagain⟩) hagenda
  | doWhile b c =>
    have hwhile : (Stmt.whileDo c b).Numeric := ⟨hs.2, hs.1⟩
    have hagain := List.forall_mem_cons.2 ⟨hwhile, hagenda⟩
    exact ⟨List.forall_mem_cons.2 ⟨hs.1, hagain⟩, hσ⟩
  | empty => exact ⟨hagenda, hσ⟩
  | seq first second => exact ⟨Stmt.forall_numeric_itemsBefore.2 ⟨hs, hagenda⟩, hσ⟩
  | expr e =>
    obtain ⟨x, σ', hx, -, hσ'⟩ := Expr.Numeric.yields hs hσ
    rw [Evaluation.step, hx.run_eval]
    exact ⟨hagenda, hσ'⟩

theorem numeric_start {p : Program} (hp : p.body.Numeric) : (start p).Numeric :=
  ⟨List.forall_mem_singleton.2 hp, Store.numeric_zero⟩

/-- **All states that a program of numbers reaches are of numbers.** -/
theorem numeric_of_steps {p : Program} (hp : p.body.Numeric) {n : Nat} {s : Evaluation}
    (h : Steps step n (start p) s) : s.Numeric := by
  refine h.preserves (fun s t hs ht => ?_) (numeric_start hp)
  have hkeeps := hs.step
  rwa [ht] at hkeeps

theorem numeric_of_run {p : Program} (hp : p.body.Numeric) {n : Nat} {o : Outcome}
    (h : run p n = some o) : ∃ σ, o = .finished σ ∧ σ.Numeric := by
  obtain ⟨m, s, hs, hdone⟩ := exists_steps_of_runFor h
  have hkeeps := (numeric_of_steps hp hs).step
  rw [hdone] at hkeeps
  cases o with
  | finished σ => exact ⟨σ, rfl, hkeeps⟩
  | faulted f σ => exact hkeeps.elim

end Evaluation

/-! ## Execution -/

/-- The instruction pushes no text and joins nothing. -/
def Instr.Numeric : Instr → Prop
  | push x => x.type = .number
  | apply op => op ≠ .concat
  | _ => True

theorem Expr.Numeric.code {e : Expr} (he : e.Numeric) : ∀ i ∈ e.code, i.Numeric := by
  induction e with
  | var | constant => simp [Expr.code, Instr.Numeric, Value.type]
  | text => exact he.elim
  | binary left op right ihl ihr =>
    obtain ⟨hl, hop, hr⟩ := he
    simp only [Expr.code, List.forall_mem_append, List.forall_mem_singleton]
    exact ⟨⟨ihl hl, ihr hr⟩, hop⟩
  | assign target value ih =>
    simp only [Expr.code, List.forall_mem_append, List.forall_mem_singleton]
    exact ⟨ih he, trivial⟩

theorem Stmt.Numeric.code {s : Stmt} (hs : s.Numeric) (a : Nat) : ∀ i ∈ s.code a, i.Numeric := by
  induction s generalizing a with
  | ifThen c t iht =>
    simp only [Stmt.code, List.forall_mem_append, List.forall_mem_singleton]
    exact ⟨⟨hs.1.code, trivial⟩, iht hs.2 _⟩
  | ifElse c t e iht ihe =>
    simp only [Stmt.code, List.forall_mem_append, List.forall_mem_singleton]
    exact ⟨⟨⟨⟨hs.1.code, trivial⟩, iht hs.2.1 _⟩, trivial⟩, ihe hs.2.2 _⟩
  | whileDo c b ihb =>
    simp only [Stmt.code, List.forall_mem_append, List.forall_mem_singleton]
    exact ⟨⟨⟨hs.1.code, trivial⟩, ihb hs.2 _⟩, trivial⟩
  | doWhile b c ihb =>
    simp only [Stmt.code, List.forall_mem_append, List.forall_mem_singleton]
    exact ⟨⟨ihb hs.1 _, hs.2.code⟩, trivial⟩
  | empty => simp [Stmt.code]
  | seq first second ihf ihs =>
    simp only [Stmt.code, List.forall_mem_append]
    exact ⟨ihf hs.1 _, ihs hs.2 _⟩
  | expr e =>
    simp only [Stmt.code, List.forall_mem_append, List.forall_mem_singleton]
    exact ⟨Expr.Numeric.code hs, trivial⟩

theorem Stmt.Numeric.layout {p : Program} (hp : p.body.Numeric) : ∀ i ∈ p.layout, i.Numeric := by
  rw [Program.layout, List.forall_mem_append, List.forall_mem_singleton]
  exact ⟨hp.code 0, trivial⟩

namespace Machine

/-- All values on the stack and in the store are numbers. -/
structure Numeric (s : Machine) : Prop where
  stack : ∀ x ∈ s.stack, x.type = .number
  store : s.store.Numeric

/-- A step leads to numbers again, or does not end with a fault and ends with numbers if it ends
with a store. -/
def KeepsNumeric : Progress Machine (Except MachineError Store) → Prop
  | .next s => s.Numeric
  | .done (.ok σ) => σ.Numeric
  | .done (.error e) => ∀ f, e ≠ .fault f

/-- **Every instruction without a text keeps all values numbers.** -/
theorem Numeric.execute {s : Machine} (hs : s.Numeric) {i : Instr} (hi : i.Numeric) (next : Nat) :
    KeepsNumeric (s.execute i next) := by
  obtain ⟨address, stack, σ⟩ := s
  obtain ⟨hstack, hσ⟩ := hs
  dsimp only at hstack hσ
  cases i with
  | fetch v => exact ⟨List.forall_mem_cons.2 ⟨hσ v, hstack⟩, hσ⟩
  | push x => exact ⟨List.forall_mem_cons.2 ⟨hi, hstack⟩, hσ⟩
  | jump target => exact ⟨hstack, hσ⟩
  | halt => exact hσ
  | store v =>
    cases stack with
    | nil => exact nofun
    | cons x stack => exact ⟨hstack, hσ.set v (List.forall_mem_cons.1 hstack).1⟩
  | pop | jumpIfZero | jumpIfNonZero =>
    cases stack with
    | nil => exact nofun
    | cons x stack => exact ⟨(List.forall_mem_cons.1 hstack).2, hσ⟩
  | apply op =>
    rcases stack with _ | ⟨right, _ | ⟨left, stack⟩⟩
    · exact nofun
    · exact nofun
    · obtain ⟨hright, hstack⟩ := List.forall_mem_cons.1 hstack
      obtain ⟨hleft, hstack⟩ := List.forall_mem_cons.1 hstack
      obtain ⟨z, hz, htype⟩ := Operator.apply_numbers hi hleft hright
      rw [execute_apply, hz]
      exact ⟨List.forall_mem_cons.2 ⟨htype, hstack⟩, hσ⟩

/-- A step of a program of numbers is one of its instructions. -/
theorem Numeric.step {p : Program} (hp : p.body.Numeric) (hsize : p.compile.size < 2 ^ 32)
    {s : Machine} (hs : s.Numeric) (hsettled : s.Settled p) : KeepsNumeric (step p.compile s) := by
  obtain ⟨front, i, back, hlayout, ha, -⟩ := hsettled
  rw [step_of_layout (p.faithful_of_size hsize) hlayout ha]
  exact hs.execute (hp.layout i (by simp [hlayout])) _

theorem numeric_start : start.Numeric := ⟨by simp [start], Store.numeric_zero⟩

/-- **All states that a program of numbers reaches are numbers.** -/
theorem numeric_of_steps {p : Program} (hp : p.body.Numeric) (hsize : p.compile.size < 2 ^ 32)
    {n : Nat} {s : Machine} (h : Steps (Machine.step p.compile) n start s) :
    s.Numeric ∧ s.Settled p := by
  refine h.preserves (P := fun s => s.Numeric ∧ s.Settled p) ?_ ⟨numeric_start, settled_start p⟩
  rintro s t ⟨hs, hsettled⟩ ht
  have hkeeps := hs.step hp hsize hsettled
  rw [ht] at hkeeps
  exact ⟨hkeeps, hsettled.next (p.faithful_of_size hsize) ht⟩

theorem numeric_of_run {p : Program} (hp : p.body.Numeric) (hsize : p.compile.size < 2 ^ 32)
    {n : Nat} {r : Except MachineError Store} (h : run p.compile n = some r) :
    ∃ σ, r = .ok σ ∧ σ.Numeric := by
  obtain ⟨m, s, hs, hdone⟩ := exists_steps_of_runFor h
  obtain ⟨hnumeric, hsettled⟩ := numeric_of_steps hp hsize hs
  have hkeeps := hnumeric.step hp hsize hsettled
  rw [hdone] at hkeeps
  obtain ⟨σ, rfl⟩ | ⟨f, rfl⟩ := hsettled.done hsize hdone
  · exact ⟨σ, rfl, hkeeps⟩
  · exact absurd rfl (hkeeps f)

end Machine

/-! ## Faults -/

theorem Stmt.Executes.blamesText {s : Stmt} {σ σ' : Store} {f : Fault}
    (h : s.Executes σ (.faulted f σ')) : f.BlamesText := by
  generalize ho : Outcome.faulted f σ' = o at h
  induction h with
  | ifThenFalse | whileStop | doStop | empty | expr => cases ho
  | ifThenFault hc | ifElseFault hc | whileFault hc | exprFault hc =>
    cases ho
    exact hc.blamesText
  | doFault _ hc => cases ho; exact hc.blamesText
  | ifThenTrue _ _ _ ih | ifElseTrue _ _ _ ih | ifElseFalse _ _ _ ih => exact ih ho
  | whileAgain _ _ _ _ _ ih | doAgain _ _ _ _ _ ih | seq _ _ _ ih => exact ih ho
  | whileBodyFault _ _ _ ih => cases ho; exact ih rfl
  | doBodyFault _ ih | seqFault _ ih => cases ho; exact ih rfl

theorem Evaluation.blamesText_of_run {p : Program} {n : Nat} {f : Fault} {σ : Store}
    (h : run p n = some (.faulted f σ)) : f.BlamesText :=
  (finishes_start_iff.1 ⟨n, h⟩).blamesText

theorem Machine.blamesText_of_execute {i : Instr} {next : Nat} {s : Machine} {f : Fault}
    (h : s.execute i next = .done (.error (.fault f))) : f.BlamesText := by
  obtain ⟨address, stack, σ⟩ := s
  cases i with
  | fetch | push | jump | halt => cases h
  | store | pop | jumpIfZero | jumpIfNonZero => cases stack <;> cases h
  | apply op =>
    rcases stack with _ | ⟨right, _ | ⟨left, stack⟩⟩
    · cases h
    · cases h
    · rw [execute_apply] at h
      cases hz : op.apply left right with
      | ok z => rw [hz] at h; cases h
      | error f => rw [hz] at h; cases h; exact Operator.blamesText_of_apply hz

/-- Code of any origin ends with a fault only because of a text. -/
theorem Machine.blamesText_of_run {c : Code} {n : Nat} {f : Fault}
    (h : run c n = some (.error (.fault f))) : f.BlamesText := by
  obtain ⟨m, s, -, hdone⟩ := exists_steps_of_runFor h
  rw [step] at hdone
  split at hdone
  · cases hdone
  · split at hdone
    · exact blamesText_of_execute hdone
    · cases hdone

/-- **Numbers stay numbers, and only texts do harm.** An expression of numbers, and so each of its
parts, is a number and leaves numbers. Where a program has neither texts nor joins in it, all values
are numbers in every state that evaluation reaches, and in every state that the machine reaches in
its code, on the stack and in the store; so no run ends but with a store, of numbers. And whatever
program or code is run, a fault is that of another operator than the join, on a text. -/
theorem numbers_stay_numbers (p : Program) :
    (∀ (e : Expr) σ, e.Numeric → σ.Numeric →
      ∃ x σ', e.eval.run σ = .ok x σ' ∧ x.type = .number ∧ σ'.Numeric) ∧
    (p.body.Numeric →
      (∀ n s, Steps Evaluation.step n (.start p) s → s.Numeric) ∧
      (∀ n r, Backend.interpreter.prepare p n = some r → ∃ σ, r = .ok σ ∧ σ.Numeric) ∧
      (p.compile.size < 2 ^ 32 →
        (∀ n s, Steps (Machine.step p.compile) n .start s → s.Numeric) ∧
        ∀ n r, Backend.vm.prepare p n = some r → ∃ σ, r = .ok σ ∧ σ.Numeric)) ∧
    (∀ n f, Backend.interpreter.prepare p n = some (.error (.fault f)) → f.BlamesText) ∧
    ∀ c n f, Machine.run c n = some (.error (.fault f)) → f.BlamesText := by
  refine ⟨fun e σ he hσ => ?_, fun hp => ⟨fun n s => Evaluation.numeric_of_steps hp,
    fun n r hr => ?_, fun hsize => ⟨fun n s hs => (Machine.numeric_of_steps hp hsize hs).1,
      fun n r => Machine.numeric_of_run hp hsize⟩⟩, fun n f hf => ?_,
    fun c n f => Machine.blamesText_of_run⟩
  · obtain ⟨x, σ', hx, htype, hσ'⟩ := he.yields hσ
    exact ⟨x, σ', hx.run_eval, htype, hσ'⟩
  · obtain ⟨o, ho, rfl⟩ := Option.map_eq_some_iff.1 hr
    obtain ⟨σ, rfl, hσ⟩ := Evaluation.numeric_of_run hp ho
    exact ⟨σ, rfl, hσ⟩
  · obtain ⟨o, ho, hfault⟩ := Option.map_eq_some_iff.1 hf
    cases o with
    | finished σ => cases hfault
    | faulted g σ =>
      cases hfault
      exact Evaluation.blamesText_of_run ho

/-- The loop `while (a < 2) a = a + (b = 1);` has only numbers, and `2 - "x";` fails because of its
text. -/
theorem numbers_stay_numbers_in_loop :
    let a : Variable := ⟨0⟩
    let b : Variable := ⟨1⟩
    let p : Program := ⟨.whileDo (.binary (.var a) .less (.constant 2))
      (.expr (.assign a (.binary (.var a) .add (.assign b (.constant 1)))))⟩
    let q : Program := ⟨.expr (.binary (.constant 2) .subtract (.text "x"))⟩
    let f : Fault := ⟨.subtract, .number, .string⟩
    p.body.Numeric ∧ p.compile.size < 2 ^ 32 ∧
      (∀ n r, Backend.interpreter.prepare p n = some r → ∃ σ, r = .ok σ ∧ σ.Numeric) ∧
      (∀ n s, Steps (Machine.step p.compile) n .start s → s.Numeric) ∧
      (∃ n, Backend.interpreter.prepare q n = some (.error (.fault f))) ∧ f.BlamesText := by
  intro a b p q f
  have hp : p.body.Numeric := by simp [p, Stmt.Numeric, Expr.Numeric]
  have hsize : p.compile.size < 2 ^ 32 := by
    rw [Program.size_compile]
    decide
  obtain ⟨-, hnumbers, -⟩ := numbers_stay_numbers p
  obtain ⟨-, hends, hcode⟩ := hnumbers hp
  have hq : q.body.Executes .zero (.faulted f .zero) :=
    .exprFault (.applyFault (.constant 2 _) (.text "x" _) rfl)
  obtain ⟨n, hn⟩ := Evaluation.finishes_start_iff.2 hq
  have hfault : Backend.interpreter.prepare q n = some (.error (.fault f)) :=
    Option.map_eq_some_iff.2 ⟨_, hn, rfl⟩
  exact ⟨hp, hsize, hends, (hcode hsize).1, ⟨n, hfault⟩, (numbers_stay_numbers q).2.2.1 n f hfault⟩

end Abecedary
