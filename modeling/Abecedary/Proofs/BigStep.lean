import Abecedary.Eval
import Abecedary.Proofs.Runs

/-!
# Evaluation in big steps

What a program does, by recursion on its tree: `Expr.Yields` and `Stmt.Executes` have a rule for
each way in which a node can end, from how its parts end. There are no chains in the rules, and no
agenda: an operator has a left and a right operand, a sequence has a first and a second statement,
and a loop that goes on is executed again from the store that its round leaves.

Evaluation walks along chains and keeps an agenda, and comes to the same. An expression yields what
it evaluates to (`Expr.run_eval_eq_iff`). An agenda is executed statement by statement
(`Evaluation.Executes`), opening a chain of sequences does not change how it ends
(`Evaluation.executes_itemsBefore`), and the machine ends as its agenda does
(`Evaluation.finishes_iff_executes`). So a statement finishes with an outcome exactly when it
executes with it, and runs on for ever exactly when it has none (`evaluation_is_big_step`).
-/

namespace Abecedary

/-! ## Rules -/

/-- The expression, evaluated in a store, ends with a value or a fault, in another store. -/
inductive Expr.Yields : Expr → Store → EStateM.Result Fault Store Value → Prop
  | var (v : Variable) (σ : Store) : Yields (.var v) σ (.ok (σ.get v) σ)
  | constant (n : Int64) (σ : Store) : Yields (.constant n) σ (.ok (.number (.ofInt64 n)) σ)
  | text (s : String) (σ : Store) : Yields (.text s) σ (.ok (.text s) σ)
  | assign {target : Variable} {value : Expr} {σ σ' : Store} {x : Value}
    (h : Yields value σ (.ok x σ')) : Yields (.assign target value) σ (.ok x (σ'.set target x))
  | assignFault {target : Variable} {value : Expr} {σ σ' : Store} {f : Fault}
    (h : Yields value σ (.error f σ')) : Yields (.assign target value) σ (.error f σ')
  | binary {left right : Expr} {op : Operator} {σ σ' σ'' : Store} {x y z : Value}
    (hleft : Yields left σ (.ok x σ')) (hright : Yields right σ' (.ok y σ''))
    (happly : op.apply x y = .ok z) : Yields (.binary left op right) σ (.ok z σ'')
  | leftFault {left right : Expr} {op : Operator} {σ σ' : Store} {f : Fault}
    (hleft : Yields left σ (.error f σ')) : Yields (.binary left op right) σ (.error f σ')
  | rightFault {left right : Expr} {op : Operator} {σ σ' σ'' : Store} {x : Value} {f : Fault}
    (hleft : Yields left σ (.ok x σ')) (hright : Yields right σ' (.error f σ'')) :
    Yields (.binary left op right) σ (.error f σ'')
  | applyFault {left right : Expr} {op : Operator} {σ σ' σ'' : Store} {x y : Value} {f : Fault}
    (hleft : Yields left σ (.ok x σ')) (hright : Yields right σ' (.ok y σ''))
    (happly : op.apply x y = .error f) : Yields (.binary left op right) σ (.error f σ'')

/-- The statement, executed in a store, ends with an outcome. -/
inductive Stmt.Executes : Stmt → Store → Outcome → Prop
  | ifThenTrue {c : Expr} {t : Stmt} {σ σ' : Store} {x : Value} {o : Outcome}
    (hc : c.Yields σ (.ok x σ')) (hx : x.isZero = false) (ht : Executes t σ' o) :
    Executes (.ifThen c t) σ o
  | ifThenFalse {c : Expr} {t : Stmt} {σ σ' : Store} {x : Value}
    (hc : c.Yields σ (.ok x σ')) (hx : x.isZero = true) : Executes (.ifThen c t) σ (.finished σ')
  | ifThenFault {c : Expr} {t : Stmt} {σ σ' : Store} {f : Fault}
    (hc : c.Yields σ (.error f σ')) : Executes (.ifThen c t) σ (.faulted f σ')
  | ifElseTrue {c : Expr} {t e : Stmt} {σ σ' : Store} {x : Value} {o : Outcome}
    (hc : c.Yields σ (.ok x σ')) (hx : x.isZero = false) (ht : Executes t σ' o) :
    Executes (.ifElse c t e) σ o
  | ifElseFalse {c : Expr} {t e : Stmt} {σ σ' : Store} {x : Value} {o : Outcome}
    (hc : c.Yields σ (.ok x σ')) (hx : x.isZero = true) (he : Executes e σ' o) :
    Executes (.ifElse c t e) σ o
  | ifElseFault {c : Expr} {t e : Stmt} {σ σ' : Store} {f : Fault}
    (hc : c.Yields σ (.error f σ')) : Executes (.ifElse c t e) σ (.faulted f σ')
  | whileStop {c : Expr} {b : Stmt} {σ σ' : Store} {x : Value}
    (hc : c.Yields σ (.ok x σ')) (hx : x.isZero = true) :
    Executes (.whileDo c b) σ (.finished σ')
  | whileAgain {c : Expr} {b : Stmt} {σ σ' σ'' : Store} {x : Value} {o : Outcome}
    (hc : c.Yields σ (.ok x σ')) (hx : x.isZero = false) (hb : Executes b σ' (.finished σ''))
    (hagain : Executes (.whileDo c b) σ'' o) : Executes (.whileDo c b) σ o
  | whileBodyFault {c : Expr} {b : Stmt} {σ σ' σ'' : Store} {x : Value} {f : Fault}
    (hc : c.Yields σ (.ok x σ')) (hx : x.isZero = false) (hb : Executes b σ' (.faulted f σ'')) :
    Executes (.whileDo c b) σ (.faulted f σ'')
  | whileFault {c : Expr} {b : Stmt} {σ σ' : Store} {f : Fault}
    (hc : c.Yields σ (.error f σ')) : Executes (.whileDo c b) σ (.faulted f σ')
  | doStop {b : Stmt} {c : Expr} {σ σ' σ'' : Store} {x : Value}
    (hb : Executes b σ (.finished σ')) (hc : c.Yields σ' (.ok x σ'')) (hx : x.isZero = true) :
    Executes (.doWhile b c) σ (.finished σ'')
  | doAgain {b : Stmt} {c : Expr} {σ σ' σ'' : Store} {x : Value} {o : Outcome}
    (hb : Executes b σ (.finished σ')) (hc : c.Yields σ' (.ok x σ'')) (hx : x.isZero = false)
    (hagain : Executes (.doWhile b c) σ'' o) : Executes (.doWhile b c) σ o
  | doBodyFault {b : Stmt} {c : Expr} {σ σ' : Store} {f : Fault}
    (hb : Executes b σ (.faulted f σ')) : Executes (.doWhile b c) σ (.faulted f σ')
  | doFault {b : Stmt} {c : Expr} {σ σ' σ'' : Store} {f : Fault}
    (hb : Executes b σ (.finished σ')) (hc : c.Yields σ' (.error f σ'')) :
    Executes (.doWhile b c) σ (.faulted f σ'')
  | empty (σ : Store) : Executes .empty σ (.finished σ)
  | seq {first second : Stmt} {σ σ' : Store} {o : Outcome}
    (hfirst : Executes first σ (.finished σ')) (hsecond : Executes second σ' o) :
    Executes (.seq first second) σ o
  | seqFault {first second : Stmt} {σ σ' : Store} {f : Fault}
    (hfirst : Executes first σ (.faulted f σ')) : Executes (.seq first second) σ (.faulted f σ')
  | expr {e : Expr} {σ σ' : Store} {x : Value} (h : e.Yields σ (.ok x σ')) :
    Executes (.expr e) σ (.finished σ')
  | exprFault {e : Expr} {σ σ' : Store} {f : Fault} (h : e.Yields σ (.error f σ')) :
    Executes (.expr e) σ (.faulted f σ')

/-! ## Expressions -/

namespace Expr

/-- Every expression yields what it evaluates to. -/
theorem yields_run_eval (e : Expr) (σ : Store) : e.Yields σ (e.eval.run σ) := by
  induction e generalizing σ with
  | var v =>
    rw [eval]
    exact .var v σ
  | constant n =>
    rw [eval]
    exact .constant n σ
  | text s =>
    rw [eval]
    exact .text s σ
  | assign target value ih =>
    have hvalue := ih σ
    rw [eval, EStateM.run_bind]
    cases hx : value.eval.run σ with
    | error f σ' =>
      rw [hx] at hvalue
      exact .assignFault hvalue
    | ok x σ' =>
      rw [hx] at hvalue
      exact .assign hvalue
  | binary left op right ihl ihr =>
    have hleft := ihl σ
    rw [eval_binary, EStateM.run_bind]
    cases hx : left.eval.run σ with
    | error f σ' =>
      rw [hx] at hleft
      exact .leftFault hleft
    | ok x σ' =>
      rw [hx] at hleft
      have hright := ihr σ'
      dsimp only
      rw [EStateM.run_bind]
      cases hy : right.eval.run σ' with
      | error f σ'' =>
        rw [hy] at hright
        exact .rightFault hleft hright
      | ok y σ'' =>
        rw [hy] at hright
        dsimp only
        cases hz : op.apply x y with
        | error f => exact .applyFault hleft hright hz
        | ok z => exact .binary hleft hright hz

/-- What an expression yields is what it evaluates to. -/
theorem Yields.run_eval {e : Expr} {σ : Store} {r : EStateM.Result Fault Store Value}
    (h : e.Yields σ r) : e.eval.run σ = r := by
  induction h with
  | var v σ | constant n σ | text s σ =>
    rw [eval]
    rfl
  | assign _ ih =>
    rw [eval, EStateM.run_bind, ih]
    rfl
  | assignFault _ ih => rw [eval, EStateM.run_bind, ih]
  | leftFault _ ih => rw [eval_binary, EStateM.run_bind, ih]
  | rightFault _ _ ihl ihr =>
    rw [eval_binary, EStateM.run_bind, ihl]
    dsimp only
    rw [EStateM.run_bind, ihr]
  | binary _ _ happly ihl ihr | applyFault _ _ happly ihl ihr =>
    rw [eval_binary, EStateM.run_bind, ihl]
    dsimp only
    rw [EStateM.run_bind, ihr]
    dsimp only
    rw [happly]
    rfl

theorem run_eval_eq_iff {e : Expr} {σ : Store} {r : EStateM.Result Fault Store Value} :
    e.eval.run σ = r ↔ e.Yields σ r :=
  ⟨fun h => h ▸ e.yields_run_eval σ, Yields.run_eval⟩

end Expr

/-! ## Agendas -/

/-- A loop with its condition behind its body is its body and then a loop with its condition in
front. -/
theorem Stmt.executes_doWhile {b : Stmt} {c : Expr} {σ σ' : Store} {o : Outcome}
    (hb : b.Executes σ (.finished σ')) (hwhile : (whileDo c b).Executes σ' o) :
    (doWhile b c).Executes σ o := by
  generalize hs : whileDo c b = s at hwhile
  -- on the rounds of the second loop: each ends where a round of the first one does
  induction hwhile generalizing σ with
  | whileStop hc hx => cases hs; exact .doStop hb hc hx
  | whileFault hc => cases hs; exact .doFault hb hc
  | whileBodyFault hc hx hb' => cases hs; exact .doAgain hb hc hx (.doBodyFault hb')
  | whileAgain hc hx hb' _ _ ih => cases hs; exact .doAgain hb hc hx (ih hb' rfl)
  | _ => cases hs

namespace Evaluation

/-- The statements of an agenda, executed one after the other, end with an outcome. -/
inductive Executes : List Stmt → Store → Outcome → Prop
  | nil (σ : Store) : Executes [] σ (.finished σ)
  | cons {s : Stmt} {agenda : List Stmt} {σ σ' : Store} {o : Outcome}
    (hs : s.Executes σ (.finished σ')) (rest : Executes agenda σ' o) : Executes (s :: agenda) σ o
  | fault {s : Stmt} {agenda : List Stmt} {σ σ' : Store} {f : Fault}
    (hs : s.Executes σ (.faulted f σ')) : Executes (s :: agenda) σ (.faulted f σ')

variable {s : Stmt} {agenda : List Stmt} {σ : Store} {o : Outcome}

theorem executes_singleton : Executes [s] σ o ↔ s.Executes σ o := by
  constructor
  · intro h
    cases h with
    | cons hs rest => cases rest; exact hs
    | fault hs => exact hs
  · intro h
    cases o with
    | finished σ' => exact .cons h (.nil σ')
    | faulted f σ' => exact .fault h

/-- A sequence on an agenda is its two statements on it. -/
theorem executes_seq {first second : Stmt} :
    Executes (.seq first second :: agenda) σ o ↔ Executes (first :: second :: agenda) σ o := by
  constructor
  · intro h
    cases h with
    | cons hs rest => cases hs with | seq hfirst hsecond => exact .cons hfirst (.cons hsecond rest)
    | fault hs =>
      cases hs with
      | seq hfirst hsecond => exact .cons hfirst (.fault hsecond)
      | seqFault hfirst => exact .fault hfirst
  · intro h
    cases h with
    | fault hfirst => exact .fault (.seqFault hfirst)
    | cons hfirst rest =>
      cases rest with
      | cons hsecond rest => exact .cons (.seq hfirst hsecond) rest
      | fault hsecond => exact .fault (.seq hfirst hsecond)

/-- **A chain of sequences is its items**, however long it is and whatever stands on it. -/
theorem executes_itemsBefore :
    Executes (s.itemsBefore agenda) σ o ↔ Executes (s :: agenda) σ o := by
  induction s generalizing agenda with
  | seq first second ihf _ => rw [Stmt.itemsBefore, ihf, executes_seq]
  | _ => rfl

/-- A statement on an agenda can be exchanged for one that ends whenever it does. -/
theorem Executes.exchange {t : Stmt} {τ : Store} (h : Executes (s :: agenda) σ o)
    (hst : ∀ o, s.Executes σ o → t.Executes τ o) : Executes (t :: agenda) τ o := by
  cases h with
  | cons hs rest => exact .cons (hst _ hs) rest
  | fault hs => exact .fault (hst _ hs)

/-! ## From the machine to the rules -/

/-- An agenda ends with an outcome from where a step has led. -/
def EndsAfter (o : Outcome) : Progress Evaluation Outcome → Prop
  | .next s => Executes s.agenda s.store o
  | .done r => o = r

/-- A condition that is evaluated without a fault decides which agenda is executed. -/
theorem endsAfter_branch {c : Expr} {ifTrue ifFalse : List Stmt}
    (h : EndsAfter o (branch c σ ifTrue ifFalse)) :
    (∃ f σ', c.Yields σ (.error f σ') ∧ o = .faulted f σ') ∨
      (∃ x σ', c.Yields σ (.ok x σ') ∧ x.isZero = false ∧ Executes ifTrue σ' o) ∨
      ∃ x σ', c.Yields σ (.ok x σ') ∧ x.isZero = true ∧ Executes ifFalse σ' o := by
  have hyields := c.yields_run_eval σ
  rw [branch] at h
  cases hx : c.eval.run σ with
  | error f σ' =>
    rw [hx] at h hyields
    exact .inl ⟨f, σ', hyields, h⟩
  | ok x σ' =>
    rw [hx] at h hyields
    cases hzero : x.isZero with
    | false =>
      simp only [EndsAfter, hzero] at h
      exact .inr (.inl ⟨x, σ', hyields, hzero, h⟩)
    | true =>
      simp only [EndsAfter, hzero] at h
      exact .inr (.inr ⟨x, σ', hyields, hzero, h⟩)

/-- **Where a step of the machine leads, the agenda ends as it does from there.** -/
theorem executes_of_step (h : EndsAfter o (step ⟨agenda, σ⟩)) : Executes agenda σ o := by
  cases agenda with
  | nil => cases h; exact .nil σ
  | cons s agenda =>
    cases s with
    | ifThen c t =>
      obtain ⟨f, σ', hc, rfl⟩ | ⟨x, σ', hc, hx, h⟩ | ⟨x, σ', hc, hx, h⟩ := endsAfter_branch h
      · exact .fault (.ifThenFault hc)
      · exact h.exchange fun _ => .ifThenTrue hc hx
      · exact .cons (.ifThenFalse hc hx) h
    | ifElse c t e =>
      obtain ⟨f, σ', hc, rfl⟩ | ⟨x, σ', hc, hx, h⟩ | ⟨x, σ', hc, hx, h⟩ := endsAfter_branch h
      · exact .fault (.ifElseFault hc)
      · exact h.exchange fun _ => .ifElseTrue hc hx
      · exact h.exchange fun _ => .ifElseFalse hc hx
    | whileDo c b =>
      obtain ⟨f, σ', hc, rfl⟩ | ⟨x, σ', hc, hx, h⟩ | ⟨x, σ', hc, hx, h⟩ := endsAfter_branch h
      · exact .fault (.whileFault hc)
      · refine (executes_seq.2 h).exchange fun _ hround => ?_
        cases hround with
        | seq hb hagain => exact .whileAgain hc hx hb hagain
        | seqFault hb => exact .whileBodyFault hc hx hb
      · exact .cons (.whileStop hc hx) h
    | doWhile b c =>
      refine (executes_seq.2 h).exchange fun _ hround => ?_
      cases hround with
      | seq hb hagain => exact Stmt.executes_doWhile hb hagain
      | seqFault hb => exact .doBodyFault hb
    | empty => exact .cons (.empty σ) h
    | seq first second => exact executes_itemsBefore.1 h
    | expr e =>
      have hyields := e.yields_run_eval σ
      rw [step] at h
      cases hx : e.eval.run σ with
      | error f σ' =>
        rw [hx] at h hyields
        cases h
        exact .fault (.exprFault hyields)
      | ok x σ' =>
        rw [hx] at h hyields
        exact .cons (.expr hyields) h

theorem executes_of_finishes (h : Finishes step ⟨agenda, σ⟩ o) : Executes agenda σ o := by
  obtain ⟨n, hn⟩ := h
  induction n generalizing agenda σ with
  | zero => cases hn
  | succ n ih =>
    refine executes_of_step ?_
    rw [runFor] at hn
    cases hs : step ⟨agenda, σ⟩ with
    | next s =>
      rw [hs] at hn
      exact ih hn
    | done r =>
      rw [hs] at hn
      exact (Option.some.inj hn).symm

/-! ## From the rules to the machine -/

/-- The machine ends with the second outcome when it is at this agenda and the statement before it
has ended with the first. -/
def Resumes (agenda : List Stmt) : Outcome → Outcome → Prop
  | .finished σ, o => Finishes step ⟨agenda, σ⟩ o
  | .faulted f σ, o => o = .faulted f σ

theorem step_doWhile {b : Stmt} {c : Expr} :
    step ⟨.doWhile b c :: agenda, σ⟩ = .next ⟨b :: .whileDo c b :: agenda, σ⟩ := rfl

theorem step_empty : step ⟨.empty :: agenda, σ⟩ = .next ⟨agenda, σ⟩ := rfl

theorem step_seq {first second : Stmt} :
    step ⟨.seq first second :: agenda, σ⟩ = .next ⟨first.itemsBefore (second :: agenda), σ⟩ := rfl

theorem finishes_itemsBefore :
    Finishes step ⟨s.itemsBefore agenda, σ⟩ o ↔ Finishes step ⟨s :: agenda, σ⟩ o := by
  cases s with
  | seq first second => exact (finishes_iff_of_next step_seq).symm
  | _ => rfl

section Branch

variable {c : Expr} {σ' : Store} {ifTrue ifFalse : List Stmt} {x : Value}

theorem branch_of_true (hc : c.Yields σ (.ok x σ')) (hx : x.isZero = false) :
    branch c σ ifTrue ifFalse = .next ⟨ifTrue, σ'⟩ := by
  simp [branch, hc.run_eval, hx]

theorem branch_of_false (hc : c.Yields σ (.ok x σ')) (hx : x.isZero = true) :
    branch c σ ifTrue ifFalse = .next ⟨ifFalse, σ'⟩ := by
  simp [branch, hc.run_eval, hx]

theorem branch_of_fault {f : Fault} (hc : c.Yields σ (.error f σ')) :
    branch c σ ifTrue ifFalse = .done (.faulted f σ') := by
  simp [branch, hc.run_eval]

end Branch

/-- **The machine executes a statement as the rules say** and goes on with its agenda. -/
theorem finishes_of_executes {r : Outcome} (h : s.Executes σ r) (ho : Resumes agenda r o) :
    Finishes step ⟨s :: agenda, σ⟩ o := by
  induction h generalizing agenda o with
  | ifThenTrue hc hx _ ih | ifElseTrue hc hx _ ih =>
    exact (finishes_iff_of_next (branch_of_true hc hx)).2 (ih ho)
  | ifElseFalse hc hx _ ih => exact (finishes_iff_of_next (branch_of_false hc hx)).2 (ih ho)
  | ifThenFalse hc hx | whileStop hc hx =>
    exact (finishes_iff_of_next (branch_of_false hc hx)).2 ho
  | ifThenFault hc | ifElseFault hc | whileFault hc =>
    cases ho
    exact finishes_of_done (branch_of_fault hc)
  | whileAgain hc hx _ _ ihb ihagain =>
    exact (finishes_iff_of_next (branch_of_true hc hx)).2 (ihb (ihagain ho))
  | whileBodyFault hc hx _ ihb =>
    cases ho
    exact (finishes_iff_of_next (branch_of_true hc hx)).2 (ihb rfl)
  | doStop _ hc hx ihb =>
    refine (finishes_iff_of_next step_doWhile).2 (ihb ?_)
    exact (finishes_iff_of_next (branch_of_false hc hx)).2 ho
  | doAgain _ hc hx _ ihb ihagain =>
    -- the second round begins with its body, as the first one did
    have hround := (finishes_iff_of_next step_doWhile).1 (ihagain ho)
    refine (finishes_iff_of_next step_doWhile).2 (ihb ?_)
    exact (finishes_iff_of_next (branch_of_true hc hx)).2 hround
  | doBodyFault _ ihb =>
    cases ho
    exact (finishes_iff_of_next step_doWhile).2 (ihb rfl)
  | doFault _ hc ihb =>
    cases ho
    exact (finishes_iff_of_next step_doWhile).2 (ihb (finishes_of_done (branch_of_fault hc)))
  | empty σ => exact (finishes_iff_of_next step_empty).2 ho
  | seq _ _ ihfirst ihsecond =>
    exact (finishes_iff_of_next step_seq).2 (finishes_itemsBefore.2 (ihfirst (ihsecond ho)))
  | seqFault _ ihfirst =>
    cases ho
    exact (finishes_iff_of_next step_seq).2 (finishes_itemsBefore.2 (ihfirst rfl))
  | expr he => exact (finishes_iff_of_next (by rw [step, he.run_eval])).2 ho
  | exprFault he =>
    cases ho
    exact finishes_of_done (by rw [step, he.run_eval])

/-- The machine ends as its agenda does. -/
theorem finishes_iff_executes : Finishes step ⟨agenda, σ⟩ o ↔ Executes agenda σ o := by
  refine ⟨executes_of_finishes, fun h => ?_⟩
  induction h with
  | nil σ => exact finishes_of_done rfl
  | cons hs _ ih => exact finishes_of_executes hs ih
  | fault hs => exact finishes_of_executes hs rfl

/-- The outcomes of a program are those of its body, executed from zeros. -/
theorem finishes_start_iff {p : Program} : Finishes step (start p) o ↔ p.body.Executes .zero o :=
  finishes_iff_executes.trans executes_singleton

end Evaluation

/-- **Evaluation is what the rules say**, on every tree and from every store. An expression comes to
the value or the fault that it yields, and leaves the same store. A statement finishes with an
outcome exactly when it executes with it, so it runs on for ever exactly when it executes with
none. A program is its body, executed from zeros. -/
theorem evaluation_is_big_step :
    (∀ (e : Expr) σ r, e.eval.run σ = r ↔ e.Yields σ r) ∧
    (∀ (s : Stmt) σ o, Finishes Evaluation.step ⟨[s], σ⟩ o ↔ s.Executes σ o) ∧
    (∀ (s : Stmt) σ, (∀ n, runFor Evaluation.step n ⟨[s], σ⟩ = none) ↔ ∀ o, ¬ s.Executes σ o) ∧
    ∀ p o, (∃ n, Evaluation.run p n = some o) ↔ p.body.Executes .zero o := by
  have hstmt (s : Stmt) (σ : Store) (o : Outcome) :
      Finishes Evaluation.step ⟨[s], σ⟩ o ↔ s.Executes σ o :=
    Evaluation.finishes_iff_executes.trans Evaluation.executes_singleton
  refine ⟨fun _ _ _ => Expr.run_eval_eq_iff, hstmt, fun s σ => ?_, fun p o => hstmt p.body .zero o⟩
  simp only [← hstmt, Finishes, not_exists, Option.eq_none_iff_forall_ne_some]
  exact forall_comm

end Abecedary
