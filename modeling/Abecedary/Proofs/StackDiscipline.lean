import Abecedary.Proofs.Simulation
import Abecedary.Proofs.StackHeight

/-!
# The stack discipline of compiled code

What the machine executes of a compiled program is always an instruction of its listing, with as
many values on the stack as the place of the instruction says (`Machine.Settled`). `Effect` lists
what an instruction can do to the address and to the height of the stack; every step keeps a settled
state settled, so all states that a run reaches are settled, however the run goes on. Such a state
has neither too few values for its instruction nor an address without one
(`stack_height_is_static`).
-/

namespace Abecedary

open Instr

namespace Machine

/-! ## One instruction -/

/-- What an instruction does in the state `s`, where the code goes on at `next` behind it. -/
inductive Effect (i : Instr) (next : Nat) (s : Machine) :
    Progress Machine (Except MachineError Store) → Prop
  /-- The instruction behind it is the next one. -/
  | passes {t : Machine} (hi : i ≠ .halt) (address : t.address = next)
    (height : t.stack.length = s.stack.length - i.takes + i.gives) : Effect i next s (.next t)
  /-- The instruction that it jumps to is the next one. -/
  | jumps {t : Machine} {target : Address} (hi : i.target? = some target)
    (address : t.address = target.toNat)
    (height : t.stack.length = s.stack.length - i.takes + i.gives) : Effect i next s (.next t)
  /-- The run ends. -/
  | halts (hi : i = .halt) : Effect i next s (.done (.ok s.store))
  /-- An operator has no meaning for its operands. -/
  | faults (f : Fault) : Effect i next s (.done (.error (.fault f)))
  /-- The stack holds fewer values than the instruction takes. -/
  | underflows (h : s.stack.length < i.takes) :
    Effect i next s (.done (.error (.stackUnderflow s.address)))

theorem effect_execute (i : Instr) (next : Nat) (s : Machine) :
    Effect i next s (s.execute i next) := by
  obtain ⟨address, stack, store⟩ := s
  cases i with
  | fetch v => exact .passes (by simp) rfl rfl
  | push x => exact .passes (by simp) rfl rfl
  | jump target => exact .jumps rfl rfl rfl
  | halt => exact .halts rfl
  | store v =>
    cases stack with
    | nil => exact .underflows Nat.zero_lt_one
    | cons x stack => exact .passes (by simp) rfl rfl
  | pop =>
    cases stack with
    | nil => exact .underflows Nat.zero_lt_one
    | cons x stack => exact .passes (by simp) rfl rfl
  | apply op =>
    rcases stack with _ | ⟨right, _ | ⟨left, stack⟩⟩
    · exact .underflows Nat.zero_lt_two
    · exact .underflows Nat.one_lt_two
    · rw [execute_apply]
      cases op.apply left right with
      | ok x => exact .passes (by simp) rfl rfl
      | error f => exact .faults f
  | jumpIfZero target =>
    cases stack with
    | nil => exact .underflows Nat.zero_lt_one
    | cons x stack =>
      rw [execute_jumpIfZero]
      by_cases hx : x.isZero
      · exact .jumps rfl (if_pos hx) rfl
      · exact .passes (by simp) (if_neg hx) rfl
  | jumpIfNonZero target =>
    cases stack with
    | nil => exact .underflows Nat.zero_lt_one
    | cons x stack =>
      rw [execute_jumpIfNonZero]
      by_cases hx : x.isZero
      · exact .passes (by simp) (if_pos hx) rfl
      · exact .jumps rfl (if_neg hx) rfl

/-! ## Settled states -/

/-- The machine stands in front of an instruction of the program, and the stack is as high as the
instructions before it make it. -/
def Settled (p : Program) (s : Machine) : Prop :=
  ∃ front i back, p.layout = front ++ i :: back ∧ s.address = totalWidth front ∧
    s.stack.length = heightAfter 0 front

theorem settled_start (p : Program) : start.Settled p := by
  cases hlayout : p.layout with
  | nil => simp [Program.layout] at hlayout
  | cons i back => exact ⟨[], i, back, hlayout, rfl, rfl⟩

/-- At an empty stack, the machine is settled where the program has an instruction for one. -/
theorem settled_of_joint {p : Program} {s : Machine} (h : p.Joint s.address)
    (hs : s.stack.length = 0) : s.Settled p := by
  obtain ⟨front, i, back, hlayout, haddress, hlevel⟩ := h
  exact ⟨front, i, back, hlayout, haddress, hs.trans hlevel.symm⟩

section Step

variable {p : Program} {s t : Machine} {front back : List Instr} {i : Instr}

/-- A machine in front of an instruction of the program executes it. -/
theorem step_of_layout (h : p.Faithful) (hlayout : p.layout = front ++ i :: back)
    (ha : s.address = totalWidth front) :
    step p.compile s = s.execute i (totalWidth (front ++ [i])) := by
  have hholds := h.holds
  rw [hlayout, ← List.singleton_append, ← List.append_assoc, Code.holds_append,
    Code.holds_append, Nat.zero_add, ← ha] at hholds
  have hstep := step_of_holds hholds.1.2 s.stack s.store
  rw [totalWidth_append, ← ha]
  simpa using hstep

theorem effect_step (h : p.Faithful) (hlayout : p.layout = front ++ i :: back)
    (ha : s.address = totalWidth front) :
    Effect i (totalWidth (front ++ [i])) s (step p.compile s) :=
  step_of_layout h hlayout ha ▸ effect_execute i _ s

/-- **Every step leads from a settled state to a settled state.** -/
theorem Settled.next (h : p.Faithful) (hs : s.Settled p)
    (ht : step p.compile s = .next t) : t.Settled p := by
  obtain ⟨front, i, back, hlayout, ha, hheight⟩ := hs
  have heffect := effect_step h hlayout ha
  have hfits := p.fits hlayout
  rw [ht] at heffect
  cases heffect with
  | passes hi address height =>
    -- only behind `halt` there is no instruction
    cases back with
    | nil =>
      have hlast := congrArg List.getLast? hlayout
      simp [Program.layout] at hlast
      exact (hi hlast.symm).elim
    | cons j back =>
      refine ⟨front ++ [i], j, back, by simp [hlayout], address, ?_⟩
      rw [height, hheight, heightAfter_append, heightAfter_cons, heightAfter_nil]
  | @jumps _ target hi address height =>
    have hmem : i ∈ p.layout := by simp [hlayout]
    refine settled_of_joint (address ▸ h.joint hmem hi) ?_
    have hlevel := hfits.level (by simp [hi])
    have hgives : i.gives = 0 := by
      cases i <;> first | rfl | cases hi
    omega

/-- A run that ends in a settled state ends with a store or a fault. -/
theorem Settled.ends (h : p.Faithful) (hs : s.Settled p)
    {r : Except MachineError Store} (hr : step p.compile s = .done r) :
    (∃ store, r = .ok store) ∨ ∃ f, r = .error (.fault f) := by
  obtain ⟨front, i, back, hlayout, ha, hheight⟩ := hs
  have heffect := effect_step h hlayout ha
  have hfits := p.fits hlayout
  rw [hr] at heffect
  cases heffect with
  | halts hi => exact .inl ⟨_, rfl⟩
  | faults f => exact .inr ⟨f, rfl⟩
  | underflows hunder =>
    have := hfits.enough
    omega

/-- **All states that a run reaches are settled.** -/
theorem settled_of_faithful (h : p.Faithful) {n : Nat} (hs : Steps (step p.compile) n start s) :
    s.Settled p :=
  hs.preserves (fun _ _ hs ht => hs.next h ht) (settled_start p)

theorem settled_of_steps (h : p.compile.size < 2 ^ 32) {n : Nat}
    (hs : Steps (step p.compile) n start s) : s.Settled p :=
  settled_of_faithful (p.faithful_of_size h) hs

theorem Settled.done (h : p.compile.size < 2 ^ 32) (hs : s.Settled p)
    {r : Except MachineError Store} (hr : step p.compile s = .done r) :
    (∃ store, r = .ok store) ∨ ∃ f, r = .error (.fault f) :=
  hs.ends (p.faithful_of_size h) hr

/-- **A run of code that is read back as it is meant ends with a store or a fault.** -/
theorem run_of_faithful (h : p.Faithful) {n : Nat} {r : Except MachineError Store}
    (hr : run p.compile n = some r) :
    (∃ store, r = .ok store) ∨ ∃ f, r = .error (.fault f) := by
  obtain ⟨m, s, hs, hdone⟩ := exists_steps_of_runFor hr
  exact (settled_of_faithful h hs).ends h hdone

end Step

end Machine

/-- **The stack discipline of compiled code.** The height of the stack is a matter of the address:
wherever a run of short code is, however long it goes on, it stands in front of an instruction of
the listing, and the stack is as high there as the address says and as the instruction needs. It is
empty where the code of a statement begins and at the end, and never higher than the largest need
of an expression. So a run ends with a store or a fault and in no other way. -/
theorem stack_height_is_static {p : Program} (h : p.compile.size < 2 ^ 32) :
    ∃ es, p.compile.instructions = .ok es ∧ ∃ height : Nat → Nat,
      height 0 = 0 ∧ (∀ u b, p.body.Part 0 u b → height b = 0) ∧
      (∀ a, (a, .halt) ∈ es → height a = 0) ∧
      (∀ n s, Steps (Machine.step p.compile) n .start s →
        (∃ i, (s.address, i) ∈ es ∧
          p.compile.decodeAt s.address = .ok (i, s.address + i.width) ∧
          s.stack.length = height s.address ∧ i.takes ≤ height s.address ∧
          (i = .halt → s.stack = [])) ∧
        s.stack.length ≤ p.body.stackNeed) ∧
      ∀ n r, Machine.run p.compile n = some r →
        (∃ store, r = .ok store) ∨ ∃ f, r = .error (.fault f) := by
  have hheight {front back : List Instr} (hlayout : p.layout = front ++ back) :
      heightAt 0 p.layout (totalWidth front) = heightAfter 0 front := by
    rw [hlayout, heightAt_totalWidth]
  refine ⟨_, p.instructions_compile h, heightAt 0 p.layout, ?_, ?_, ?_, ?_, ?_⟩
  · exact hheight (List.nil_append _).symm
  · intro u b hu
    obtain ⟨front, i, back, hlayout, rfl, hlevel⟩ := (Program.joint_of_liesIn hu.liesIn).1
    rw [hheight hlayout, hlevel]
  · intro a ha
    obtain ⟨front, back, hlayout, rfl⟩ := mem_placed.1 ha
    obtain ⟨rfl, -⟩ := p.eq_code_of_halt hlayout
    rw [Nat.zero_add, hheight hlayout, Stmt.heightAfter_code]
  · intro n s hs
    obtain ⟨front, i, back, hlayout, haddress, hlength⟩ := Machine.settled_of_steps h hs
    have hfits := p.fits hlayout
    rw [haddress, hheight hlayout]
    refine ⟨⟨i, ?_, ?_, hlength, hfits.enough, ?_⟩, hlength ▸ hfits.within⟩
    · exact mem_placed.2 ⟨front, back, hlayout, (Nat.zero_add _).symm⟩
    · have hholds := p.holds_layout h
      rw [hlayout, ← List.singleton_append, Code.holds_append, Code.holds_append,
        Nat.zero_add] at hholds
      exact hholds.2.1.decodeAt
    · rintro rfl
      obtain ⟨rfl, -⟩ := p.eq_code_of_halt hlayout
      rw [Stmt.heightAfter_code] at hlength
      exact List.length_eq_zero_iff.1 hlength
  · intro n r hr
    obtain ⟨m, s, hs, hdone⟩ := exists_steps_of_runFor hr
    exact (Machine.settled_of_steps h hs).done h hdone

/-- The theorem at a loop without end whose expressions lean to the right:
`do if (a) a = 1 - (2 - (a < "x")); else { } while (b = 3);`. -/
theorem stack_height_is_static_in_endless_loop :
    let a : Variable := ⟨0⟩
    let b : Variable := ⟨1⟩
    let inner : Expr := .binary (.constant 2) .subtract (.binary (.var a) .less (.text "x"))
    let p : Program := ⟨.doWhile
      (.ifElse (.var a) (.expr (.assign a (.binary (.constant 1) .subtract inner))) .empty)
      (.assign b (.constant 3))⟩
    p.compile.size < 2 ^ 32 ∧
      (∀ n s, Steps (Machine.step p.compile) n .start s → s.stack.length ≤ 4) ∧
      ∀ n r, Machine.run p.compile n = some r →
        (∃ store, r = .ok store) ∨ ∃ f, r = .error (.fault f) := by
  intro a b inner p
  have h : p.compile.size < 2 ^ 32 := by
    rw [Program.size_compile]
    decide
  obtain ⟨_, _, _, _, _, _, hreached, hends⟩ := stack_height_is_static h
  exact ⟨h, fun n s hs => (hreached n s hs).2, hends⟩

end Abecedary
