import Abecedary.Backend
import Abecedary.Proofs.Layout
import Abecedary.Proofs.Runs

/-!
# Compiled code does what the program does

The stack machine on the code of a program simulates the evaluation of its tree. The code of an
expression pushes its value (`Expr.computes_code`). An agenda of statements corresponds to an
address when the code from there on executes them and halts (`Continues`): the code of the first
statement lies there and the others continue behind it, where a jump may lead on, and where the
condition of a loop may lead back. Evaluation takes some steps to which the code has no
instruction, opening a sequence for one; `Stmt.weight` bounds them.

So a program finishes with a store or a fault exactly when its code does
(`interpreter_agrees_with_vm`).
-/

namespace Abecedary

/-! ## Expressions -/

namespace Machine

variable {c : Code} {a : Nat}

theorem step_of_holds {i : Instr} (h : c.Holds a [i]) (stack : List Value) (store : Store) :
    step c ⟨a, stack, store⟩ = execute i (a + i.width) ⟨a, stack, store⟩ := by
  rw [step, if_neg (Nat.not_le.2 h.lt_size), h.decodeAt]

section Execute

variable (next address : Nat) (stack : List Value) (store : Store)

@[simp] theorem execute_fetch (v : Variable) :
    execute (.fetch v) next ⟨address, stack, store⟩ = .next ⟨next, store.get v :: stack, store⟩ :=
  rfl

@[simp] theorem execute_store (v : Variable) (x : Value) :
    execute (.store v) next ⟨address, x :: stack, store⟩ =
      .next ⟨next, x :: stack, store.set v x⟩ := rfl

@[simp] theorem execute_push (x : Value) :
    execute (.push x) next ⟨address, stack, store⟩ = .next ⟨next, x :: stack, store⟩ := rfl

theorem execute_apply (op : Operator) (left right : Value) :
    execute (.apply op) next ⟨address, right :: left :: stack, store⟩ =
      match op.apply left right with
      | .ok x => .next ⟨next, x :: stack, store⟩
      | .error f => .done (.error (.fault f)) := rfl

theorem execute_jumpIfZero (target : Address) (x : Value) :
    execute (.jumpIfZero target) next ⟨address, x :: stack, store⟩ =
      .next ⟨if x.isZero then target.toNat else next, stack, store⟩ := rfl

theorem execute_jumpIfNonZero (target : Address) (x : Value) :
    execute (.jumpIfNonZero target) next ⟨address, x :: stack, store⟩ =
      .next ⟨if x.isZero then next else target.toNat, stack, store⟩ := rfl

end Execute

/-- The machine reaches the address `b` with the value of an evaluation on the stack, or ends with
its fault. -/
def Computes (c : Code) (s : Machine) (b : Nat) (stack : List Value) :
    EStateM.Result Fault Store Value → Prop
  | .ok x store => ∃ n, Steps (step c) n s ⟨b, x :: stack, store⟩
  | .error f _ => ∃ n t, Steps (step c) n s t ∧ step c t = .done (.error (.fault f))

/-- The machine goes on from the value of a first evaluation to that of a second one. -/
theorem Computes.bind {s : Machine} {b : Nat} {stack stack' : List Value} {store : Store}
    {p : Effect Value} {f : Value → Effect Value} (h : Computes c s a stack (p.run store))
    (hf : ∀ x store', Computes c ⟨a, x :: stack, store'⟩ b stack' ((f x).run store')) :
    Computes c s b stack' ((p >>= f).run store) := by
  rw [EStateM.run_bind]
  cases hp : p.run store with
  | error e store' =>
    rw [hp] at h
    exact h
  | ok x store' =>
    rw [hp] at h
    obtain ⟨m, hm⟩ := h
    have hx := hf x store'
    dsimp only
    cases hq : (f x).run store' with
    | error e store'' =>
      rw [hq] at hx
      obtain ⟨n, t, hn, ht⟩ := hx
      exact ⟨m + n, t, hm.trans hn, ht⟩
    | ok y store'' =>
      rw [hq] at hx
      obtain ⟨n, hn⟩ := hx
      exact ⟨m + n, hm.trans hn⟩

end Machine

theorem run_ofExcept (r : Except Fault Value) (store : Store) :
    EStateM.run (ofExcept r : Effect Value) store =
      match r with
      | .ok x => .ok x store
      | .error f => .error f store := by
  cases r <;> rfl

/-- **The code of an expression pushes its value.** -/
theorem Expr.computes_code (e : Expr) {c : Code} {a : Nat} (h : c.Holds a e.code)
    (stack : List Value) (store : Store) :
    Machine.Computes c ⟨a, stack, store⟩ (a + e.width) stack (e.eval.run store) := by
  induction e generalizing a stack store with
  | var v =>
    rw [eval]
    refine ⟨1, .one ((Machine.step_of_holds h ..).trans ?_)⟩
    simp [width, code]
  | constant n =>
    rw [eval]
    refine ⟨1, .one ((Machine.step_of_holds h ..).trans ?_)⟩
    simp [width, code]
  | text s =>
    rw [eval]
    refine ⟨1, .one ((Machine.step_of_holds h ..).trans ?_)⟩
    simp [width, code]
  | assign target value ih =>
    obtain ⟨hvalue, hstore⟩ := Code.holds_append.1 h
    rw [eval]
    refine .bind (ih hvalue stack store) fun x store' => ?_
    refine ⟨1, .one ((Machine.step_of_holds hstore ..).trans ?_)⟩
    simp [width, code, Nat.add_assoc]
  | binary left op right ihl ihr =>
    obtain ⟨hoperands, happly⟩ := Code.holds_append.1 h
    obtain ⟨hleft, hright⟩ := Code.holds_append.1 hoperands
    rw [eval_binary]
    refine .bind (ihl hleft stack store) fun x store' => ?_
    refine .bind (ihr hright (x :: stack) store') fun y store'' => ?_
    -- both operands are on the stack, the right one on top
    have hstep := Machine.step_of_holds happly (y :: x :: stack) store''
    rw [Instr.totalWidth_append, ← Nat.add_assoc, Machine.execute_apply] at hstep
    rw [run_ofExcept]
    cases hz : op.apply x y with
    | error f =>
      rw [hz] at hstep
      exact ⟨0, _, .refl _, hstep⟩
    | ok z =>
      rw [hz] at hstep
      refine ⟨1, .one (hstep.trans ?_)⟩
      simp [width, code, Nat.add_assoc]

/-! ## Agendas -/

/-- The code from the address `a` on executes the statements of an agenda and halts. -/
inductive Continues (c : Code) : List Stmt → Nat → Prop
  /-- Nothing is left to execute. -/
  | halt {a : Nat} (h : c.Holds a [.halt]) : Continues c [] a
  /-- The code of the first statement lies here, and the others continue behind it. -/
  | stmt {a : Nat} {s : Stmt} {agenda : List Stmt} (h : c.Holds a (s.code a))
    (rest : Continues c agenda (a + s.width)) : Continues c (s :: agenda) a
  /-- The agenda continues where a jump leads. -/
  | jump {a b : Nat} {agenda : List Stmt} (h : c.Holds a [.jump (.ofNat b)]) (hb : b < 2 ^ 32)
    (rest : Continues c agenda b) : Continues c agenda a
  /-- The body of a loop has been executed, and its condition, which may lead back to the body,
  lies here. -/
  | again {a : Nat} {body : Stmt} {condition : Expr} {agenda : List Stmt}
    (h : c.Holds a ((Stmt.doWhile body condition).code a)) (ha : a < 2 ^ 32)
    (rest : Continues c agenda (a + (Stmt.doWhile body condition).width)) :
    Continues c (.whileDo condition body :: agenda) (a + body.width)

/-- The evaluation and the machine are at the same place, with the same store. -/
def Matches (c : Code) (s : Evaluation) (t : Machine) : Prop :=
  Continues c s.agenda t.address ∧ t.stack = [] ∧ t.store = s.store

/-- A bound on the steps of evaluation at the beginning of a statement that have no instruction. -/
def Stmt.weight : Stmt → Nat
  | empty => 1
  | seq first second => first.weight + second.weight + 1
  | doWhile body _ => body.weight + 2
  | _ => 1

/-- The same bound for an agenda. -/
def Evaluation.weight (s : Evaluation) : Nat := s.agenda.foldr (fun s n => s.weight + n) 0

namespace Continues

variable {c : Code} {a : Nat} {agenda : List Stmt}

/-- The items of a chain of sequences lie one behind the other. -/
theorem itemsBefore {s : Stmt} (h : c.Holds a (s.code a))
    (rest : Continues c agenda (a + s.width)) : Continues c (s.itemsBefore agenda) a := by
  induction s generalizing a agenda with
  | seq first second ihf _ =>
    obtain ⟨hfirst, hsecond⟩ := Code.holds_append.1 h
    rw [Stmt.totalWidth_code] at hsecond
    refine ihf hfirst (.stmt hsecond ?_)
    rwa [Nat.add_assoc]
  | _ => exact .stmt h rest

end Continues

namespace Evaluation

theorem weight_itemsBefore_le (s : Stmt) (agenda : List Stmt) (store : Store) :
    weight ⟨s.itemsBefore agenda, store⟩ ≤ s.weight + weight ⟨agenda, store⟩ := by
  induction s generalizing agenda with
  | seq first second ihf _ =>
    have h := ihf (second :: agenda)
    simp only [Stmt.itemsBefore, weight, List.foldr_cons, Stmt.weight] at *
    omega
  | _ => exact Nat.le_refl _

variable {c : Code} {a : Nat}

/-- How the machine answers a step of the evaluation. -/
abbrev Answered (c : Code) (t : Machine) (s : Evaluation) : Prop :=
  Answers (Machine.step c) (fun o => o.result.mapError .fault) (Matches c) weight s t (step s)

/-- A condition and a conditional jump behind it take the machine where the chosen agenda
continues. -/
theorem answers_branch {s : Evaluation} {condition : Expr} {i : Instr}
    {store : Store} {ifTrue ifFalse : List Stmt} {whereTrue whereFalse : Nat}
    (h : c.Holds a (condition.code ++ [i]))
    (hi : ∀ b x store, Machine.execute i (a + condition.width + i.width)
      ⟨b, [x], store⟩ = .next ⟨if x.isZero then whereFalse else whereTrue, [], store⟩)
    (hTrue : Continues c ifTrue whereTrue) (hFalse : Continues c ifFalse whereFalse) :
    Answers (Machine.step c) (fun o => o.result.mapError .fault) (Matches c) weight s
      ⟨a, [], store⟩ (branch condition store ifTrue ifFalse) := by
  obtain ⟨hcondition, hjump⟩ := Code.holds_append.1 h
  have hcomputes := condition.computes_code hcondition [] store
  rw [branch]
  cases hx : condition.eval.run store with
  | error f store' =>
    rw [hx] at hcomputes
    obtain ⟨n, t, hn, ht⟩ := hcomputes
    exact .done hn ht
  | ok x store' =>
    rw [hx] at hcomputes
    obtain ⟨n, hn⟩ := hcomputes
    have hstep := (Machine.step_of_holds hjump [x] store').trans (hi _ x store')
    refine .next (hn.trans (.one hstep)) ⟨?_, rfl, rfl⟩ (fun h => by omega)
    dsimp only
    split
    · exact hFalse
    · exact hTrue

theorem answers_jumpIfZero {s : Evaluation} {condition : Expr} {b : Nat} {store : Store}
    {ifTrue ifFalse : List Stmt} (h : c.Holds a (condition.code ++ [.jumpIfZero (.ofNat b)]))
    (hb : b < 2 ^ 32) (hTrue : Continues c ifTrue (a + condition.width + 5))
    (hFalse : Continues c ifFalse b) :
    Answers (Machine.step c) (fun o => o.result.mapError .fault) (Matches c) weight s
      ⟨a, [], store⟩ (branch condition store ifTrue ifFalse) :=
  answers_branch h (fun _ x _ => by
    rw [Machine.execute_jumpIfZero, UInt32.toNat_ofNat_of_lt' hb, Instr.width_jumpIfZero])
    hTrue hFalse

/-- An answer may begin with a step of its own. -/
theorem answered_of_step {s : Evaluation} {t t' : Machine} (h : Machine.step c t = .next t')
    (ht : Answered c t' s) : Answered c t s := by
  unfold Answered at ht ⊢
  generalize step s = progress at ht ⊢
  cases ht with
  | next steps related _ => exact .next (.head h steps) related (fun h => by omega)
  | done steps ends => exact .done (.head h steps) ends

/-- The end of a loop with its condition behind its body leads back or on. -/
theorem answered_again (hc : c.size < 2 ^ 32) {body : Stmt} {condition : Expr}
    {agenda : List Stmt} (h : c.Holds a ((Stmt.doWhile body condition).code a))
    (rest : Continues c agenda (a + (Stmt.doWhile body condition).width)) (store : Store) :
    Answered c ⟨a + body.width, [], store⟩ ⟨.whileDo condition body :: agenda, store⟩ := by
  have hsize := h.le_size
  have ha : a < 2 ^ 32 := by omega
  have hagain : Continues c (.whileDo condition body :: agenda) (a + body.width) :=
    .again h ha rest
  rw [Stmt.code, List.append_assoc] at h
  obtain ⟨hbody, hcondition⟩ := Code.holds_append.1 h
  rw [Stmt.totalWidth_code] at hcondition
  refine answers_branch hcondition (fun _ x _ => ?_) (.stmt hbody hagain) rest
  rw [Machine.execute_jumpIfNonZero, UInt32.toNat_ofNat_of_lt' ha, Instr.width_jumpIfNonZero,
    Stmt.width]
  simp only [Nat.add_assoc]

/-- The first statement of an agenda is executed by its code. -/
theorem answered_stmt (hc : c.size < 2 ^ 32) {s : Stmt} {agenda : List Stmt}
    (h : c.Holds a (s.code a)) (rest : Continues c agenda (a + s.width)) (store : Store) :
    Answered c ⟨a, [], store⟩ ⟨s :: agenda, store⟩ := by
  have hsize := h.le_size
  rw [Stmt.totalWidth_code] at hsize
  cases s with
  | ifThen condition thenBranch =>
    obtain ⟨hcondition, hthen⟩ := Code.holds_append.1 h
    rw [Stmt.width] at hsize rest
    refine answers_jumpIfZero hcondition (by omega) (.stmt ?_ ?_) ?_
    · simpa [Expr.width, Nat.add_assoc] using hthen
    · simpa [Nat.add_assoc] using rest
    · simpa [Nat.add_assoc] using rest
  | ifElse condition thenBranch elseBranch =>
    obtain ⟨h, helse⟩ := Code.holds_append.1 h
    obtain ⟨h, hjump⟩ := Code.holds_append.1 h
    obtain ⟨hcondition, hthen⟩ := Code.holds_append.1 h
    rw [Stmt.width] at hsize rest
    -- behind the first branch a jump leads over the second one
    have hend : Continues c agenda (a + condition.width + 5 + thenBranch.width) := by
      refine .jump (b := a + condition.width + 5 + thenBranch.width + 5 + elseBranch.width)
        ?_ (by omega) ?_
      · simpa [Expr.width, Nat.add_assoc] using hjump
      · simpa [Nat.add_assoc] using rest
    refine answers_jumpIfZero hcondition (by omega) (.stmt ?_ hend) (.stmt ?_ ?_)
    · simpa [Expr.width, Nat.add_assoc] using hthen
    · simpa [Expr.width, Nat.add_assoc] using helse
    · simpa [Nat.add_assoc] using rest
  | whileDo condition body =>
    have hwhile : Continues c (.whileDo condition body :: agenda) a := .stmt h rest
    obtain ⟨h, hjump⟩ := Code.holds_append.1 h
    obtain ⟨hcondition, hbody⟩ := Code.holds_append.1 h
    rw [Stmt.width] at hsize rest
    have hback : Continues c (.whileDo condition body :: agenda)
        (a + condition.width + 5 + body.width) := by
      refine .jump (b := a) ?_ (by omega) hwhile
      simpa [Expr.width, Nat.add_assoc] using hjump
    refine answers_jumpIfZero hcondition (by omega) (.stmt ?_ hback) ?_
    · simpa [Expr.width, Nat.add_assoc] using hbody
    · simpa [Nat.add_assoc] using rest
  | doWhile body condition =>
    -- the machine stands still, and the agenda loses weight
    have hbody := (Code.holds_append.1 (Code.holds_append.1 h).1).1
    have hagain : Continues c (.whileDo condition body :: agenda) (a + body.width) :=
      .again h (by omega) rest
    refine .next (.refl _) ⟨.stmt hbody hagain, rfl, rfl⟩ (fun _ => ?_)
    simp only [weight, List.foldr_cons, Stmt.weight]
    omega
  | empty => exact .next (.refl _) ⟨rest, rfl, rfl⟩ (fun _ => by simp [weight, Stmt.weight])
  | seq first second =>
    refine .next (.refl _) ⟨Continues.itemsBefore h rest, rfl, rfl⟩ (fun _ => ?_)
    have := weight_itemsBefore_le first (second :: agenda) store
    simp only [Stmt.itemsBefore, weight, List.foldr_cons, Stmt.weight] at *
    omega
  | expr e =>
    obtain ⟨hvalue, hpop⟩ := Code.holds_append.1 h
    have hcomputes := e.computes_code hvalue [] store
    rw [Answered, step]
    cases hx : e.eval.run store with
    | error f store' =>
      rw [hx] at hcomputes
      obtain ⟨n, t, hn, ht⟩ := hcomputes
      exact .done hn ht
    | ok x store' =>
      rw [hx] at hcomputes
      obtain ⟨n, hn⟩ := hcomputes
      exact .next (hn.trans (.one (Machine.step_of_holds hpop ..))) ⟨rest, rfl, rfl⟩
        (fun h => by omega)

/-- **The machine answers every step of an evaluation.** -/
theorem answered (hc : c.size < 2 ^ 32) {agenda : List Stmt} (h : Continues c agenda a)
    (store : Store) : Answered c ⟨a, [], store⟩ ⟨agenda, store⟩ := by
  induction h with
  | halt h => exact .done (.refl _) (Machine.step_of_holds h ..)
  | stmt h rest => exact answered_stmt hc h rest store
  | @jump a b agenda h hb rest ih =>
    refine answered_of_step (Machine.step_of_holds h ..) ?_
    simpa [UInt32.toNat_ofNat_of_lt' hb] using ih
  | again h ha rest => exact answered_again hc h rest store

end Evaluation

/-! ## Programs -/

/-- The evaluation of a program and the run of its code begin at the same place. -/
theorem Program.matches_start {p : Program} (h : p.compile.size < 2 ^ 32) :
    Matches p.compile (Evaluation.start p) Machine.start := by
  obtain ⟨hbody, hhalt⟩ := Code.holds_append.1 (p.holds_layout h)
  rw [Stmt.totalWidth_code] at hhalt
  exact ⟨.stmt hbody (.halt hhalt), rfl, rfl⟩

/-- The machine simulates the evaluation. -/
theorem Evaluation.answered_of_matches {c : Code} (hc : c.size < 2 ^ 32) (s : Evaluation)
    (t : Machine) (h : Matches c s t) : Answered c t s := by
  obtain ⟨agenda, store⟩ := s
  obtain ⟨a, stack, store'⟩ := t
  obtain ⟨hcontinues, rfl, rfl⟩ := h
  exact answered hc hcontinues _

/-- A program whose code is short finishes with a result exactly when its code does. -/
theorem Program.prepare_interpreter_iff_vm {p : Program} (h : p.compile.size < 2 ^ 32)
    (r : Except MachineError Store) :
    (∃ n, Backend.interpreter.prepare p n = some r) ↔ ∃ n, Backend.vm.prepare p n = some r := by
  have hiff := finishes_iff_of_simulates (Evaluation.answered_of_matches h)
    (p.matches_start h) r
  refine Iff.trans ⟨?_, ?_⟩ hiff
  · rintro ⟨n, hn⟩
    obtain ⟨o, ho, rfl⟩ := Option.map_eq_some_iff.1 hn
    exact ⟨o, ⟨n, ho⟩, rfl⟩
  · rintro ⟨o, ⟨n, ho⟩, rfl⟩
    exact ⟨n, Option.map_eq_some_iff.2 ⟨o, ho, rfl⟩⟩

/-- **Both backends agree.** A program whose code is shorter than `2 ^ 32` bytes finishes with a
store, or with a fault, exactly when its code does; so one of them runs on for ever exactly when
the other does, and the code ends in no other way. -/
theorem interpreter_agrees_with_vm (p : Program) (h : p.compile.size < 2 ^ 32) :
    (∀ r, (∃ n, Backend.interpreter.prepare p n = some r) ↔
      ∃ n, Backend.vm.prepare p n = some r) ∧
    ((∀ n, Backend.interpreter.prepare p n = none) ↔ ∀ n, Backend.vm.prepare p n = none) ∧
    ∀ n r, Backend.vm.prepare p n = some r →
      (∃ store, r = .ok store) ∨ ∃ f, r = .error (.fault f) := by
  have hiff := Program.prepare_interpreter_iff_vm h
  refine ⟨hiff, ?_, fun n r hr => ?_⟩
  · have hsome (b : Prepared) : (∀ n, b n = none) ↔ ¬ ∃ r n, b n = some r := by
      simp only [not_exists, Option.eq_none_iff_forall_ne_some]
      exact forall_comm
    simp only [hsome, hiff]
  · obtain ⟨m, hm⟩ := (hiff r).2 ⟨n, hr⟩
    obtain ⟨o, -, rfl⟩ := Option.map_eq_some_iff.1 hm
    cases o with
    | finished store => exact .inl ⟨store, rfl⟩
    | faulted f store => exact .inr ⟨f, rfl⟩

/-- The theorem at a loop whose second round ends with a fault: `do { a = a - b; b = "x"; }
while (1);`. -/
theorem interpreter_agrees_with_vm_faulting_loop :
    let a : Variable := ⟨0⟩
    let b : Variable := ⟨1⟩
    let p : Program := ⟨.doWhile
      (.seq (.seq .empty (.expr (.assign a (.binary (.var a) .subtract (.var b)))))
        (.expr (.assign b (.text "x"))))
      (.constant 1)⟩
    p.compile.size < 2 ^ 32 ∧
      (∀ r, (∃ n, Backend.interpreter.prepare p n = some r) ↔
        ∃ n, Backend.vm.prepare p n = some r) ∧
      ((∀ n, Backend.interpreter.prepare p n = none) ↔ ∀ n, Backend.vm.prepare p n = none) ∧
      ∀ n r, Backend.vm.prepare p n = some r →
        (∃ store, r = .ok store) ∨ ∃ f, r = .error (.fault f) := by
  intro a b p
  have h : p.compile.size < 2 ^ 32 := by
    rw [Program.size_compile]
    decide
  exact ⟨h, interpreter_agrees_with_vm p h⟩

end Abecedary
