import Abecedary.Program.Chain
import Abecedary.Run
import Abecedary.Store

/-!
# Evaluation

Programs are evaluated on their trees. An expression is evaluated in a store, which its
assignments change, to a value or a fault; the store outlives a fault. A program is run by a
machine whose state is the store and the agenda, the statements that are still to be executed:
a loop puts its body on the agenda and itself behind it, so a state is all there is to a run.
-/

namespace Abecedary

/-- A computation that changes the store and may end with a fault. -/
abbrev Effect := EStateM Fault Store

/-- The value of an expression: operands from left to right, each operator as soon as its right
operand is known. -/
def Expr.eval (e : Expr) : Effect Value :=
  match e with
  | .var v => return (← get).get v
  | .constant n => return .number (.ofInt64 n)
  | .text s => return .text s
  | .assign target value => do
    let x ← value.eval
    modify (·.set target x)
    return x
  | .binary left op right => do
    let first ← (binary left op right).head.eval
    (binary left op right).links.attach.foldlM
      (fun x ⟨link, _⟩ => do
        let y ← link.2.eval
        ofExcept (link.1.apply x y))
      first
termination_by sizeOf e
decreasing_by
  · simp only [assign.sizeOf_spec]; omega
  · exact sizeOf_head_binary_lt left op right
  · exact sizeOf_lt_of_mem_links (by assumption)

/-- A fold may forget where the elements of its list come from. -/
theorem foldlM_attach {m : Type → Type} [Monad m] [LawfulMonad m] {α β : Type} (l : List α)
    (f : β → α → m β) (b : β) :
    (l.attach.foldlM (fun b x => f b x.1) b) = l.foldlM f b := by
  conv => rhs; rw [← List.attach_map_subtype_val l, List.foldlM_map]

/-- An expression is evaluated along its chain. -/
theorem Expr.eval_eq_chain (e : Expr) :
    e.eval = (do
      let first ← e.head.eval
      e.links.foldlM (fun x link => do
        let y ← link.2.eval
        ofExcept (link.1.apply x y)) first) := by
  cases e with
  | binary left op right =>
    rw [eval.eq_def]
    simp only
    congr 1
    funext first
    exact foldlM_attach (binary left op right).links (fun x link => do
      let y ← link.2.eval
      ofExcept (link.1.apply x y)) first
  | _ => simp [head, links, linksBefore]

/-- An operator is applied to the values of its operands, the left one evaluated first. -/
theorem Expr.eval_binary (left : Expr) (op : Operator) (right : Expr) :
    (binary left op right).eval = (do
      let x ← left.eval
      let y ← right.eval
      ofExcept (op.apply x y)) := by
  rw [eval_eq_chain, eval_eq_chain left]
  simp [List.foldlM_append]

/-- How the evaluation of a program ends, and the store as it then is. -/
inductive Outcome where
  | finished (store : Store)
  | faulted (fault : Fault) (store : Store)
deriving DecidableEq

/-- The store of a program that finished, or its fault. -/
def Outcome.result : Outcome → Except Fault Store
  | finished store => .ok store
  | faulted fault _ => .error fault

/-- A state of the evaluation of a program. -/
structure Evaluation where
  agenda : List Stmt
  store : Store

namespace Evaluation

/-- The state in which a program begins. -/
def start (p : Program) : Evaluation := ⟨[p.body], .zero⟩

/-- Evaluates a condition and goes on with one of two agendas. -/
def branch (condition : Expr) (store : Store) (ifTrue ifFalse : List Stmt) :
    Progress Evaluation Outcome :=
  match condition.eval.run store with
  | .ok x store => .next ⟨if x.isZero then ifFalse else ifTrue, store⟩
  | .error fault store => .done (.faulted fault store)

/-- Executes the first statement of the agenda, or the first part of it. -/
def step : Evaluation → Progress Evaluation Outcome
  | ⟨[], store⟩ => .done (.finished store)
  | ⟨s :: agenda, store⟩ =>
    match s with
    | .ifThen condition thenBranch =>
      branch condition store (thenBranch :: agenda) agenda
    | .ifElse condition thenBranch elseBranch =>
      branch condition store (thenBranch :: agenda) (elseBranch :: agenda)
    | .whileDo condition body =>
      branch condition store (body :: .whileDo condition body :: agenda) agenda
    | .doWhile body condition => .next ⟨body :: .whileDo condition body :: agenda, store⟩
    | .empty => .next ⟨agenda, store⟩
    | .seq first second => .next ⟨(Stmt.seq first second).itemsBefore agenda, store⟩
    | .expr e =>
      match e.eval.run store with
      | .ok _ store => .next ⟨agenda, store⟩
      | .error fault store => .done (.faulted fault store)

/-- How the evaluation of a program ends, if it does within `n` steps. -/
def run (p : Program) (n : Nat) : Option Outcome := runFor step n (start p)

end Evaluation

end Abecedary
