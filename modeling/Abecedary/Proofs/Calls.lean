import Abecedary.Proofs.Backpatching

/-!
# The calls of the compiler

The compiler writes code by calls of an emitter alone: to compile an expression or a statement is to
make its calls, one after the other (`Expr.applyAll_calls`, `Stmt.applyAll_calls`). Which jumps are
open when it begins makes no difference to it. When it has made its calls the same jumps are open,
those that it has opened itself having been patched, each once (`Stmt.closes_calls`), and so all its
patches go to places behind the code that it has found (`Call.Closes.le_slot`).
-/

namespace Abecedary

open Call

/-- The calls that write the code of an expression, in their order. -/
def Expr.calls : Expr → List Call
  | var v => [.emitVariable .fetch v]
  | constant n => [.emitNumber (.ofInt64 n)]
  | text s => [.emitText s]
  | binary left op right => left.calls ++ right.calls ++ [.emit op.opcode]
  | assign target value => value.calls ++ [.emitVariable .store target]

/-- The calls that write the code of a statement behind what `out` holds, in their order. A forward
jump is patched by the patch that it leaves behind there. -/
def Stmt.calls : Stmt → (out : Emitter) → List Call
  | ifThen c t, out =>
    let skip := (c.compile out).emitForward .jumpIfZero
    c.calls ++ [.emitForward .jumpIfZero] ++ t.calls skip.2 ++ [.patch skip.1]
  | ifElse c t e, out =>
    let toElse := (c.compile out).emitForward .jumpIfZero
    let toEnd := (t.compile toElse.2).emitForward .jump
    c.calls ++ [.emitForward .jumpIfZero] ++ t.calls toElse.2 ++
      [.emitForward .jump, .patch toElse.1] ++ e.calls (toEnd.2.patch toElse.1) ++ [.patch toEnd.1]
  | whileDo c b, out =>
    let exit := (c.compile out).emitForward .jumpIfZero
    c.calls ++ [.emitForward .jumpIfZero] ++ b.calls exit.2 ++
      [.emitJump .jump out.position, .patch exit.1]
  | doWhile b c, out => b.calls out ++ c.calls ++ [.emitJump .jumpIfNonZero out.position]
  | empty, _ => []
  | seq first second, out => first.calls out ++ second.calls (first.compile out)
  | expr e, _ => e.calls ++ [.emit .pop]

/-! ## To compile is to make the calls -/

theorem Call.applyAll_append (front back : List Call) (out : Emitter) :
    applyAll (front ++ back) out = applyAll back (applyAll front out) := List.foldl_append

theorem Expr.applyAll_calls (e : Expr) (out : Emitter) : applyAll e.calls out = e.compile out := by
  induction e generalizing out with
  | binary left op right ihl ihr =>
    rw [calls, applyAll_append, applyAll_append, ihl, ihr, compile_binary]
    rfl
  | assign target value ih =>
    rw [calls, applyAll_append, ih, compile]
    rfl
  | _ => rw [compile]; rfl

theorem Stmt.applyAll_calls (s : Stmt) (out : Emitter) :
    applyAll (s.calls out) out = s.compile out := by
  induction s generalizing out with
  | ifThen c t iht =>
    simp only [calls, applyAll_append, c.applyAll_calls, applyAll_cons, applyAll_nil, apply, iht,
      compile]
  | ifElse c t e iht ihe =>
    simp only [calls, applyAll_append, c.applyAll_calls, applyAll_cons, applyAll_nil, apply, iht,
      ihe, compile]
  | whileDo c b ihb =>
    simp only [calls, applyAll_append, c.applyAll_calls, applyAll_cons, applyAll_nil, apply, ihb,
      compile]
  | doWhile b c ihb =>
    simp only [calls, applyAll_append, c.applyAll_calls, applyAll_cons, applyAll_nil, apply, ihb,
      compile]
  | empty => rw [compile]; rfl
  | seq first second ihf ihs => rw [calls, applyAll_append, ihf, ihs, compile_seq]
  | expr e =>
    rw [calls, applyAll_append, e.applyAll_calls, compile]
    rfl

/-! ## Every jump is patched -/

section Closes

variable {out : Emitter} {pending : List Patch} {later : List Call}

/-- The jump that was opened last is patched. -/
theorem Call.Closes.patch_last {p : Patch} (rest : Closes (out.patch p) pending later) :
    Closes out (p :: pending) (.patch p :: later) := by
  refine .patch List.mem_cons_self ?_
  rwa [List.erase_cons_head]

/-- The jump that was opened last but one is patched. -/
theorem Call.Closes.patch_second {p q : Patch} (rest : Closes (out.patch p) (q :: pending) later) :
    Closes out (q :: p :: pending) (.patch p :: later) := by
  refine .patch (List.mem_cons_of_mem _ List.mem_cons_self) ?_
  rcases eq_or_ne q p with rfl | hne
  · rwa [List.erase_cons_head]
  · rwa [List.erase_cons_tail (by simpa using hne), List.erase_cons_head]

theorem Expr.closes_calls {e : Expr} (rest : Closes (e.compile out) pending later) :
    Closes out pending (e.calls ++ later) := by
  induction e generalizing out later with
  | binary left op right ihl ihr =>
    rw [compile_binary] at rest
    rw [calls, List.append_assoc, List.append_assoc]
    exact ihl (ihr (.write (by simp) (by simp) rest))
  | assign target value ih =>
    rw [compile] at rest
    rw [calls, List.append_assoc]
    exact ih (.write (by simp) (by simp) rest)
  | _ =>
    rw [compile] at rest
    exact .write (by simp) (by simp) rest

/-- **Every forward jump of a statement is patched when its code has been written**, and the jumps
that were open before still are. -/
theorem Stmt.closes_calls {s : Stmt} (rest : Closes (s.compile out) pending later) :
    Closes out pending (s.calls out ++ later) := by
  induction s generalizing out pending later with
  | ifThen c t iht =>
    rw [compile] at rest
    simp only [calls, List.append_assoc, List.cons_append, List.nil_append]
    exact c.closes_calls (.forward (iht (.patch_last rest)))
  | ifElse c t e iht ihe =>
    rw [compile] at rest
    simp only [calls, List.append_assoc, List.cons_append, List.nil_append]
    exact c.closes_calls (.forward (iht (.forward (.patch_second (ihe (.patch_last rest))))))
  | whileDo c b ihb =>
    rw [compile] at rest
    simp only [calls, List.append_assoc, List.cons_append, List.nil_append]
    exact c.closes_calls (.forward (ihb (.write (by simp) (by simp) (.patch_last rest))))
  | doWhile b c ihb =>
    rw [compile] at rest
    simp only [calls, List.append_assoc, List.cons_append, List.nil_append]
    exact ihb (c.closes_calls (.write (by simp) (by simp) rest))
  | empty =>
    rw [compile] at rest
    exact rest
  | seq first second ihf ihs =>
    rw [compile_seq] at rest
    rw [calls, List.append_assoc]
    exact ihf (ihs rest)
  | expr e =>
    rw [compile] at rest
    rw [calls, List.append_assoc]
    exact e.closes_calls (.write (by simp) (by simp) rest)

end Closes

/-! ## Where patches go -/

namespace Call

theorem size_le_size_apply (call : Call) (out : Emitter) :
    out.bytes.size ≤ (call.apply out).bytes.size := by
  cases call <;>
    simp [apply, Emitter.emit_eq_write, Emitter.emitVariable, Emitter.emitNumber, Emitter.emitText,
      Emitter.emitJump, Emitter.emitForward, Emitter.patch]

/-- Where no jump is open below an address, no patch goes below it. -/
theorem Closes.le_slot {n : Nat} {out : Emitter} {pending : List Patch} {calls : List Call}
    (h : Closes out pending calls) (hsize : n ≤ out.bytes.size)
    (hpending : ∀ p ∈ pending, n ≤ p.slot) {p : Patch} (hp : .patch p ∈ calls) : n ≤ p.slot := by
  induction h with
  | nil => cases hp
  | write _ hpatch _ ih =>
    rcases List.mem_cons.1 hp with hcall | hp
    · exact absurd hcall.symm (hpatch p)
    · exact ih (hsize.trans (size_le_size_apply ..)) hpending hp
  | @forward out _ op _ _ ih =>
    rcases List.mem_cons.1 hp with hcall | hp
    · cases hcall
    · refine ih (hsize.trans (size_le_size_apply (.emitForward op) out)) (fun q hq => ?_) hp
      rcases List.mem_cons.1 hq with rfl | hq
      · rw [Emitter.emitForward_eq_write]
        exact hsize.trans (Nat.le_succ _)
      · exact hpending q hq
  | @patch out _ q _ hmem _ ih =>
    rcases List.mem_cons.1 hp with hcall | hp
    · cases hcall
      exact hpending p hmem
    · exact ih (hsize.trans (size_le_size_apply (.patch q) out))
        (fun r hr => hpending r (List.mem_of_mem_erase hr)) hp

end Call

end Abecedary
