import Abecedary.Proofs.Decoding
import Abecedary.Proofs.Layout

/-!
# Backpatching

An emitter is driven by calls, in any order: instructions are written, forward jumps are opened and,
some time later, patched. Nothing is asked of the order in which forward jumps are patched, only
that each of them is patched once (`Closes`), and that opcodes fit their calls (`Call.Fits`).

At every moment the bytes are those of some instructions, the open jumps among them going nowhere
yet (`Draft`). What the calls to come will make of these instructions, and what they will write
behind them, is their `outlook`; no call changes it (`Draft.step`), so in the end the code is what
it has been meant to be from the beginning (`emitted_code_is_listed`).
-/

namespace Abecedary

open Instr

/-! ## Calls -/

namespace Opcode

/-- The instruction of an opcode that has no operand. -/
def plain? : Opcode → Option Instr
  | pop => some .pop
  | add => some (.apply .add)
  | sub => some (.apply .subtract)
  | less => some (.apply .less)
  | concat => some (.apply .concat)
  | halt => some .halt
  | _ => none

/-- The instruction of an opcode whose operand is a variable. -/
def withVariable? : Opcode → Option (Variable → Instr)
  | fetch => some .fetch
  | store => some .store
  | _ => none

/-- The instruction of an opcode whose operand is an address. -/
def jump? : Opcode → Option (Address → Instr)
  | jumpIfZero => some .jumpIfZero
  | jumpIfNonZero => some .jumpIfNonZero
  | jump => some .jump
  | _ => none

end Opcode

/-- A call of an emitter. A forward jump is patched by the patch that it has left behind. -/
inductive Call where
  | emit (op : Opcode)
  | emitVariable (op : Opcode) (v : Variable)
  | emitNumber (x : Number)
  | emitText (s : String)
  | emitJump (op : Opcode) (target : Address)
  | emitForward (op : Opcode)
  | patch (p : Patch)
deriving DecidableEq

namespace Call

/-- The emitter after the call. -/
def apply : Call → Emitter → Emitter
  | emit op, out => out.emit op
  | emitVariable op v, out => out.emitVariable op v
  | emitNumber x, out => out.emitNumber x
  | emitText s, out => out.emitText s
  | emitJump op target, out => out.emitJump op target
  | emitForward op, out => (out.emitForward op).2
  | patch p, out => out.patch p

/-- The opcode fits the call, and a number does not begin with the tag of a text. -/
def Fits : Call → Prop
  | emit op => op ∈ [.pop, .add, .sub, .less, .concat, .halt]
  | emitVariable op _ => op ∈ [.fetch, .store]
  | emitNumber x => (Code.bigEndian 8 x.bits.toNat).take 4 ≠ Code.textTag
  | emitText _ => True
  | emitJump op _ => op ∈ [.jumpIfZero, .jumpIfNonZero, .jump]
  | emitForward op => op ∈ [.jumpIfZero, .jumpIfNonZero, .jump]
  | patch _ => True

/-- The emitter after some calls. -/
def applyAll (calls : List Call) (out : Emitter) : Emitter :=
  calls.foldl (fun out call => call.apply out) out

/-- The position at which the first of some calls to patch a forward jump does so. -/
def targetOf (p : Patch) : Emitter → List Call → Address
  | out, [] => out.position
  | out, call :: later =>
    if call = patch p then out.position else targetOf p (call.apply out) later

/-- The instruction that the call stands for in the end, if it stands for one. A forward jump goes
where it is patched by one of the later calls. -/
def instr? (out : Emitter) (call : Call) (later : List Call) : Option Instr :=
  match call with
  | emit op => op.plain?
  | emitVariable op v => op.withVariable?.map fun i => i v
  | emitNumber x => some (.push (.number x))
  | emitText s => some (.push (.text s))
  | emitJump op target => op.jump?.map fun i => i target
  | emitForward op =>
    op.jump?.map fun i => i (targetOf (out.emitForward op).1 (out.emitForward op).2 later)
  | patch _ => none

/-- The instructions that some calls stand for, each with the position at which it is written. -/
def entries : Emitter → List Call → List (Nat × Instr)
  | _, [] => []
  | out, call :: later =>
    ((call.instr? out later).map fun i => (out.position.toNat, i)).toList ++
      entries (call.apply out) later

/-- Of the open forward jumps and those that the calls open, each is patched exactly once, and
nothing else is. A patch comes into being with a forward jump and is used up where the jump is
patched. -/
inductive Closes : Emitter → List Patch → List Call → Prop
  | nil (out : Emitter) : Closes out [] []
  | write {out : Emitter} {pending : List Patch} {call : Call} {later : List Call}
    (hforward : ∀ op, call ≠ emitForward op) (hpatch : ∀ p, call ≠ patch p)
    (rest : Closes (call.apply out) pending later) : Closes out pending (call :: later)
  | forward {out : Emitter} {pending : List Patch} {op : Opcode} {later : List Call}
    (rest : Closes (out.emitForward op).2 ((out.emitForward op).1 :: pending) later) :
    Closes out pending (emitForward op :: later)
  | patch {out : Emitter} {pending : List Patch} {p : Patch} {later : List Call}
    (hp : p ∈ pending) (rest : Closes (out.patch p) (pending.erase p) later) :
    Closes out pending (patch p :: later)

@[simp] theorem applyAll_nil (out : Emitter) : applyAll [] out = out := rfl

@[simp] theorem applyAll_cons (call : Call) (later : List Call) (out : Emitter) :
    applyAll (call :: later) out = applyAll later (call.apply out) := rfl

theorem targetOf_cons_of_ne {p : Patch} {out : Emitter} {call : Call} {later : List Call}
    (h : call ≠ patch p) : targetOf p out (call :: later) = targetOf p (call.apply out) later :=
  if_neg h

/-- A fitting call that neither opens nor patches a jump writes its instruction at once. -/
theorem Fits.exists_write {call : Call} (h : call.Fits) (hforward : ∀ op, call ≠ emitForward op)
    (hpatch : ∀ p, call ≠ patch p) :
    ∃ i, (∀ out later, call.instr? out later = some i) ∧
      ∀ out, call.apply out = out.emitInstr i := by
  cases call with
  | emit op =>
    simp only [Fits, List.mem_cons, List.not_mem_nil, or_false] at h
    rcases h with rfl | rfl | rfl | rfl | rfl | rfl <;> exact ⟨_, fun _ _ => rfl, fun _ => rfl⟩
  | emitVariable op v =>
    simp only [Fits, List.mem_cons, List.not_mem_nil, or_false] at h
    rcases h with rfl | rfl <;> exact ⟨_, fun _ _ => rfl, fun _ => rfl⟩
  | emitNumber x | emitText s => exact ⟨_, fun _ _ => rfl, fun _ => rfl⟩
  | emitJump op target =>
    simp only [Fits, List.mem_cons, List.not_mem_nil, or_false] at h
    rcases h with rfl | rfl | rfl <;> exact ⟨_, fun _ _ => rfl, fun _ => rfl⟩
  | emitForward op => exact absurd rfl (hforward op)
  | patch p => exact absurd rfl (hpatch p)

/-- A fitting forward jump is one of the three jumps. -/
theorem Fits.exists_jump {op : Opcode} (h : (emitForward op).Fits) :
    ∃ jump, op.jump? = some jump := by
  simp only [Fits, List.mem_cons, List.not_mem_nil, or_false] at h
  rcases h with rfl | rfl | rfl <;> exact ⟨_, rfl⟩

end Call

/-! ## Jumps -/

/-- The same jump with another target. -/
def Instr.withTarget : Instr → Address → Instr
  | jumpIfZero _, target => .jumpIfZero target
  | jumpIfNonZero _, target => .jumpIfNonZero target
  | jump _, target => .jump target
  | i, _ => i

theorem Instr.encode_of_target? {i : Instr} {target : Address} (h : i.target? = some target) :
    i.encode = i.opcode.byte :: target.bytes := by
  cases i <;> cases h <;> rfl

theorem Instr.encode_withTarget {i : Instr} (h : i.target?.isSome) (target : Address) :
    (i.withTarget target).encode = i.opcode.byte :: target.bytes := by
  cases i <;> first | rfl | cases h

@[simp] theorem Instr.width_withTarget (i : Instr) (target : Address) :
    (i.withTarget target).width = i.width := by
  cases i <;> rfl

theorem Opcode.jump?_eq_some {op : Opcode} {jump : Address → Instr} (h : op.jump? = some jump)
    (target : Address) : (jump target).encode = op.byte :: target.bytes ∧
      (jump target).target? = some target ∧
      ∀ target', (jump target).withTarget target' = jump target' := by
  cases op <;> cases h <;> exact ⟨rfl, rfl, fun _ => rfl⟩

namespace Emitter

theorem emitInstr_eq_write (out : Emitter) (i : Instr) :
    out.emitInstr i = out.write i.encode := by
  ext1
  rw [toList_emitInstr, toList_write]

@[simp] theorem size_overwrite (bytes : Array UInt8) (k : Nat) (bs : List UInt8) :
    (overwrite bytes k bs).size = bytes.size := by
  induction bs generalizing bytes k with
  | nil => rfl
  | cons b bs ih => rw [overwrite, ih, Array.size_setIfInBounds]

/-- Overwriting reaches no byte before or behind the place. -/
theorem getElem?_overwrite (bytes : Array UInt8) {k : Nat} {bs : List UInt8} {n : Nat}
    (h : n < k ∨ k + bs.length ≤ n) : (overwrite bytes k bs)[n]? = bytes[n]? := by
  induction bs generalizing bytes k with
  | nil => rfl
  | cons b bs ih =>
    rw [List.length_cons] at h
    rw [overwrite, ih _ (by omega), Array.getElem?_setIfInBounds_ne (by omega)]

end Emitter

/-! ## Drafts -/

open Call

/-- The bytes written so far are those of some instructions, among which the open forward jumps
are. The target of an open jump stands one byte behind its address. -/
structure Draft (out : Emitter) (pending : List Patch) (is : List Instr) : Prop where
  bytes : out.bytes.toList = encodeAll is
  isOpen : ∀ p ∈ pending, ∃ a i, (a, i) ∈ placed 0 is ∧ i.target?.isSome ∧ p = ⟨a + 1⟩
  nodup : pending.Nodup

/-- What later calls make of an instruction at an address: they close it if it is an open jump. -/
def resolve (out : Emitter) (pending : List Patch) (later : List Call) (entry : Nat × Instr) :
    Instr :=
  if ⟨entry.1 + 1⟩ ∈ pending then entry.2.withTarget (targetOf ⟨entry.1 + 1⟩ out later)
  else entry.2

/-- The instructions in the end, when later calls have patched those that are there and have written
theirs. -/
def outlook (out : Emitter) (pending : List Patch) (later : List Call) (is : List Instr) :
    List Instr :=
  (placed 0 is).map (resolve out pending later) ++ (entries out later).map Prod.snd

theorem Instr.bounds_of_mem_placed {a b : Nat} {i : Instr} {is : List Instr}
    (h : (b, i) ∈ placed a is) : a ≤ b ∧ b < a + totalWidth is := by
  obtain ⟨front, back, rfl, rfl⟩ := mem_placed.1 h
  have := i.width_pos
  rw [totalWidth_append, totalWidth_cons]
  omega

namespace Draft

variable {out : Emitter} {pending : List Patch} {is : List Instr} {later : List Call}

theorem empty : Draft .empty [] [] := ⟨rfl, by simp, .nil⟩

theorem size_eq (h : Draft out pending is) : out.bytes.size = totalWidth is := by
  rw [← Array.length_toList, h.bytes, length_encodeAll]

/-- The slot of an open jump lies in the code. -/
theorem slot_le (h : Draft out pending is) {p : Patch} (hp : p ∈ pending) :
    p.slot + 4 ≤ out.bytes.size := by
  obtain ⟨a, i, hi, hjump, rfl⟩ := h.isOpen p hp
  obtain ⟨target, htarget⟩ := Option.isSome_iff_exists.1 hjump
  obtain ⟨front, back, rfl, rfl⟩ := mem_placed.1 hi
  have hwidth : i.width = 5 := by
    rw [width, encode_of_target? htarget, List.length_cons, Emitter.length_addressBytes]
  rw [h.size_eq, totalWidth_append, totalWidth_cons, hwidth]
  show 0 + totalWidth front + 1 + 4 ≤ _
  omega

/-- No open jump begins where the code ends. -/
theorem notMem_pending (h : Draft out pending is) : ⟨totalWidth is + 1⟩ ∉ pending := by
  intro hmem
  have hle : totalWidth is + 1 + 4 ≤ out.bytes.size := h.slot_le hmem
  rw [h.size_eq] at hle
  omega

/-- An instruction is written behind the others. -/
theorem write (h : Draft out pending is) (i : Instr) :
    Draft (out.write i.encode) pending (is ++ [i]) where
  bytes := by simp [h.bytes]
  isOpen p hp := by
    obtain ⟨a, j, hj, hjump⟩ := h.isOpen p hp
    exact ⟨a, j, by simp [hj], hjump⟩
  nodup := h.nodup

theorem emitForward_eq (h : Draft out pending is) {op : Opcode} {jump : Address → Instr}
    (hjump : op.jump? = some jump) :
    out.emitForward op = (⟨totalWidth is + 1⟩, out.write (jump 0).encode) := by
  rw [Emitter.emitForward_eq_write, h.size_eq, (Opcode.jump?_eq_some hjump 0).1]
  rfl

/-- A forward jump is opened behind the others. -/
theorem forward (h : Draft out pending is) {op : Opcode} {jump : Address → Instr}
    (hjump : op.jump? = some jump) :
    Draft (out.write (jump 0).encode) (⟨totalWidth is + 1⟩ :: pending) (is ++ [jump 0]) := by
  have hwrite := h.write (jump 0)
  refine ⟨hwrite.bytes, fun p hp => ?_, List.nodup_cons.2 ⟨h.notMem_pending, h.nodup⟩⟩
  rcases List.mem_cons.1 hp with rfl | hp
  · exact ⟨totalWidth is, jump 0, by simp, by simp [(Opcode.jump?_eq_some hjump 0).2.1], rfl⟩
  · exact hwrite.isOpen p hp

/-- An open jump gets its target, and nothing else changes. -/
theorem patch {front back : List Instr} {i : Instr} (h : Draft out pending (front ++ i :: back))
    (hjump : i.target?.isSome) :
    Draft (out.patch ⟨totalWidth front + 1⟩) (pending.erase ⟨totalWidth front + 1⟩)
      (front ++ i.withTarget out.position :: back) := by
  obtain ⟨target, htarget⟩ := Option.isSome_iff_exists.1 hjump
  have hbytes : out.bytes.toList =
      (encodeAll front ++ [i.opcode.byte]) ++ (target.bytes ++ encodeAll back) := by
    rw [h.bytes, encodeAll_append, encodeAll_cons, encode_of_target? htarget]
    simp
  have hlength : out.position.bytes.length = target.bytes.length := by simp
  have hover := Emitter.toList_overwrite hbytes hlength
  refine ⟨?_, fun q hq => ?_, h.nodup.erase _⟩
  · rw [Emitter.patch, encodeAll_append, encodeAll_cons, encode_withTarget hjump]
    simpa [length_encodeAll] using hover
  · obtain ⟨hne, hq⟩ := h.nodup.mem_erase_iff.1 hq
    obtain ⟨a, j, hj, hopen, rfl⟩ := h.isOpen q hq
    -- it lies before or behind the patched jump, so it is still there
    have ha : a ≠ totalWidth front := fun ha => hne (by rw [ha])
    refine ⟨a, j, ?_, hopen, rfl⟩
    simpa [ha] using hj

end Draft

/-! ## Nothing is decided later -/

section Resolve

variable {out : Emitter} {pending : List Patch} {call : Call} {later : List Call}
  {entry : Nat × Instr}

theorem resolve_of_notMem (h : ⟨entry.1 + 1⟩ ∉ pending) :
    resolve out pending later entry = entry.2 := if_neg h

/-- A call that does not patch an instruction leaves open what will become of it. -/
theorem resolve_cons (h : call ≠ .patch ⟨entry.1 + 1⟩) :
    resolve out pending (call :: later) entry = resolve (call.apply out) pending later entry := by
  rw [resolve, resolve, targetOf_cons_of_ne h]

theorem resolve_congr {pending' : List Patch}
    (h : ⟨entry.1 + 1⟩ ∈ pending' ↔ ⟨entry.1 + 1⟩ ∈ pending) :
    resolve out pending' later entry = resolve out pending later entry := by
  simp only [resolve, h]

end Resolve

namespace Draft

variable {out : Emitter} {pending : List Patch} {is : List Instr} {later : List Call}

theorem outlook_write (h : Draft out pending is) {call : Call} {i : Instr}
    (hpatch : ∀ p, call ≠ .patch p) (hi : call.instr? out later = some i) :
    outlook (call.apply out) pending later (is ++ [i]) = outlook out pending (call :: later) is := by
  have hnew : resolve (call.apply out) pending later (totalWidth is, i) = i :=
    resolve_of_notMem h.notMem_pending
  have hold (e : Nat × Instr) :
      resolve out pending (call :: later) e = resolve (call.apply out) pending later e :=
    resolve_cons (hpatch _)
  simp [outlook, entries, hi, hnew, funext hold]

theorem outlook_forward (h : Draft out pending is) {op : Opcode} {jump : Address → Instr}
    (hjump : op.jump? = some jump) :
    outlook (out.write (jump 0).encode) (⟨totalWidth is + 1⟩ :: pending) later (is ++ [jump 0]) =
      outlook out pending (.emitForward op :: later) is := by
  have hemit := h.emitForward_eq hjump
  set p : Patch := ⟨totalWidth is + 1⟩ with hp
  have hnew : resolve (out.write (jump 0).encode) (p :: pending) later (totalWidth is, jump 0) =
      jump (targetOf p (out.write (jump 0).encode) later) := by
    rw [resolve, if_pos List.mem_cons_self, (Opcode.jump?_eq_some hjump 0).2.2]
  have hold : ∀ e ∈ placed 0 is, resolve (out.write (jump 0).encode) (p :: pending) later e =
      resolve out pending (.emitForward op :: later) e := by
    intro e he
    have hlt := (bounds_of_mem_placed he).2
    have hne : (⟨e.1 + 1⟩ : Patch) ≠ p := by
      rw [hp, Ne, Patch.mk.injEq]
      omega
    rw [resolve_cons (by simp), Call.apply, hemit]
    exact resolve_congr (by simp [hne])
  simp [outlook, entries, instr?, hjump, hemit, hnew, Call.apply, List.map_congr_left hold]

theorem outlook_patch {front back : List Instr} {i : Instr}
    (h : Draft out pending (front ++ i :: back)) (hmem : ⟨totalWidth front + 1⟩ ∈ pending) :
    outlook (out.patch ⟨totalWidth front + 1⟩) (pending.erase ⟨totalWidth front + 1⟩) later
        (front ++ i.withTarget out.position :: back) =
      outlook out pending (.patch ⟨totalWidth front + 1⟩ :: later) (front ++ i :: back) := by
  set p : Patch := ⟨totalWidth front + 1⟩ with hp
  have hthis : resolve (out.patch p) (pending.erase p) later
      (totalWidth front, i.withTarget out.position) =
        resolve out pending (.patch p :: later) (totalWidth front, i) := by
    have hclosed : p ∉ pending.erase p := fun hp => (h.nodup.mem_erase_iff.1 hp).1 rfl
    rw [resolve_of_notMem hclosed, resolve, if_pos hmem, targetOf, if_pos rfl]
  have hother (e : Nat × Instr) (he : e.1 ≠ totalWidth front) :
      resolve (out.patch p) (pending.erase p) later e =
        resolve out pending (.patch p :: later) e := by
    have hne : (⟨e.1 + 1⟩ : Patch) ≠ p := by
      rw [hp, Ne, Patch.mk.injEq]
      omega
    rw [resolve_cons (by simpa using hne.symm)]
    exact resolve_congr (by rw [h.nodup.mem_erase_iff, and_iff_right hne])
  have hfront : ∀ e ∈ placed 0 front, resolve (out.patch p) (pending.erase p) later e =
      resolve out pending (.patch p :: later) e := fun e he => hother e <| by
    have := (bounds_of_mem_placed he).2
    omega
  have hback : ∀ e ∈ placed (totalWidth front + i.width) back,
      resolve (out.patch p) (pending.erase p) later e =
        resolve out pending (.patch p :: later) e := fun e he => hother e <| by
    have := (bounds_of_mem_placed he).1
    have := i.width_pos
    omega
  simp [outlook, entries, instr?, Call.apply, hthis, List.map_congr_left hfront,
    List.map_congr_left hback]

/-- **No call changes the outlook.** -/
theorem step (h : Draft out pending is) {call : Call} (hfits : call.Fits)
    (hcloses : Closes out pending (call :: later)) :
    ∃ pending' is', Draft (call.apply out) pending' is' ∧
      Closes (call.apply out) pending' later ∧
      outlook (call.apply out) pending' later is' = outlook out pending (call :: later) is := by
  cases hcloses with
  | write hforward hpatch rest =>
    obtain ⟨i, hi, happly⟩ := hfits.exists_write hforward hpatch
    refine ⟨pending, is ++ [i], ?_, rest, h.outlook_write hpatch (hi ..)⟩
    rw [happly, Emitter.emitInstr_eq_write]
    exact h.write i
  | forward rest =>
    obtain ⟨jump, hjump⟩ := hfits.exists_jump
    have hemit := h.emitForward_eq hjump
    rw [hemit] at rest
    rw [Call.apply, hemit]
    exact ⟨_, _, h.forward hjump, rest, h.outlook_forward hjump⟩
  | patch hp rest =>
    obtain ⟨a, i, hi, hjump, rfl⟩ := h.isOpen _ hp
    obtain ⟨front, back, rfl, rfl⟩ := mem_placed.1 hi
    rw [Nat.zero_add] at hp rest ⊢
    exact ⟨_, _, h.patch hjump, rest, h.outlook_patch hp⟩

/-- **In the end the code is what it has been meant to be.** -/
theorem toList_applyAll {calls : List Call} (h : Draft out pending is)
    (hfits : ∀ call ∈ calls, call.Fits) (hcloses : Closes out pending calls) :
    (applyAll calls out).bytes.toList = encodeAll (outlook out pending calls is) := by
  induction calls generalizing out pending is with
  | nil =>
    cases hcloses
    have hresolve : resolve out [] [] = Prod.snd :=
      funext fun _ => resolve_of_notMem List.not_mem_nil
    simp [outlook, entries, hresolve, h.bytes]
  | cons call later ih =>
    rw [List.forall_mem_cons] at hfits
    obtain ⟨pending', is', h', hcloses', heq⟩ := h.step hfits.1 hcloses
    rw [applyAll_cons, ih h' hfits.2 hcloses', heq]

/-- A patch that is used has its slot in the code. -/
theorem slot_le_of_closes {front back : List Call} {p : Patch} (h : Draft out pending is)
    (hfits : ∀ call ∈ front, call.Fits) (hcloses : Closes out pending (front ++ .patch p :: back)) :
    p.slot + 4 ≤ (applyAll front out).bytes.size := by
  induction front generalizing out pending is with
  | nil =>
    cases hcloses with
    | patch hp _ => exact h.slot_le hp
    | write _ hpatch _ => exact absurd rfl (hpatch p)
  | cons call front ih =>
    rw [List.forall_mem_cons] at hfits
    obtain ⟨pending', is', h', hcloses', -⟩ := h.step hfits.1 hcloses
    exact ih h' hfits.2 hcloses'

end Draft

/-! ## Positions -/

namespace Call

/-- A fitting call writes as many bytes as its instruction has. -/
theorem size_apply {call : Call} (h : call.Fits) (out : Emitter) (later : List Call) :
    (call.apply out).bytes.size = out.bytes.size + totalWidth (call.instr? out later).toList := by
  cases call with
  | emitForward op =>
    obtain ⟨jump, hjump⟩ := h.exists_jump
    have hwidth (target : Address) : (jump target).width = 5 := by
      rw [width, (Opcode.jump?_eq_some hjump target).1, List.length_cons,
        Emitter.length_addressBytes]
    rw [apply, Emitter.emitForward_eq_write, Emitter.size_write]
    simp [instr?, hjump, hwidth]
  | patch p => simp [apply, instr?, Emitter.patch]
  | _ =>
    obtain ⟨i, hi, happly⟩ := h.exists_write (by simp) (by simp)
    rw [hi, happly, Emitter.emitInstr_eq_write, Emitter.size_write]
    simp [width]

theorem map_snd_entries_cons (out : Emitter) (call : Call) (later : List Call) :
    (entries out (call :: later)).map Prod.snd =
      (call.instr? out later).toList ++ (entries (call.apply out) later).map Prod.snd := by
  cases hi : call.instr? out later <;> simp [entries, hi]

theorem size_applyAll {calls : List Call} (hfits : ∀ call ∈ calls, call.Fits) (out : Emitter) :
    (applyAll calls out).bytes.size =
      out.bytes.size + totalWidth ((entries out calls).map Prod.snd) := by
  induction calls generalizing out with
  | nil => rfl
  | cons call later ih =>
    rw [List.forall_mem_cons] at hfits
    rw [applyAll_cons, ih hfits.2, size_apply hfits.1 out later, map_snd_entries_cons,
      totalWidth_append, Nat.add_assoc]

/-- In short code the positions that are reported are the addresses of the instructions. -/
theorem entries_eq_placed {calls : List Call} (hfits : ∀ call ∈ calls, call.Fits) {out : Emitter}
    (hsize : (applyAll calls out).bytes.size < 2 ^ 32) :
    entries out calls = placed out.bytes.size ((entries out calls).map Prod.snd) := by
  induction calls generalizing out with
  | nil => rfl
  | cons call later ih =>
    have hposition : out.position.toNat = out.bytes.size := by
      refine UInt32.toNat_ofNat_of_lt' (lt_of_le_of_lt ?_ hsize)
      rw [size_applyAll hfits]
      exact Nat.le_add_right ..
    rw [List.forall_mem_cons] at hfits
    rw [applyAll_cons] at hsize
    have hlater := ih hfits.2 hsize
    rw [size_apply hfits.1 out later] at hlater
    rw [map_snd_entries_cons, placed_append, ← hlater, entries]
    cases call.instr? out later with
    | none => rfl
    | some i => simp [hposition]

/-- Only a number is written where a number is read. -/
theorem eq_emitNumber_of_instr? {out : Emitter} {call : Call} {later : List Call} {x : Number}
    (h : call.instr? out later = some (.push (.number x))) : call = emitNumber x := by
  cases call with
  | emitNumber y => cases h; rfl
  | emit op => cases op <;> cases h
  | emitVariable op v => cases op <;> cases h
  | emitJump op target => cases op <;> cases h
  | emitForward op => cases op <;> cases h
  | emitText s => cases h
  | patch p => cases h

theorem exists_call_of_mem_entries {calls : List Call} {out : Emitter} {e : Nat × Instr}
    (h : e ∈ entries out calls) :
    ∃ call ∈ calls, ∃ out' later, call.instr? out' later = some e.2 := by
  induction calls generalizing out with
  | nil => cases h
  | cons call later ih =>
    rcases List.mem_append.1 h with h | h
    · obtain ⟨i, hi, rfl⟩ := Option.map_eq_some_iff.1 (Option.mem_toList.1 h)
      exact ⟨call, List.mem_cons_self, out, later, hi⟩
    · obtain ⟨call', hmem, hcall⟩ := ih h
      exact ⟨call', List.mem_cons_of_mem _ hmem, hcall⟩

/-- The decoder tells each of the instructions written, if the code is short. -/
theorem encodable_of_mem_entries {calls : List Call} (hfits : ∀ call ∈ calls, call.Fits)
    {out : Emitter} (hsize : (applyAll calls out).bytes.size < 2 ^ 32) {e : Nat × Instr}
    (he : e ∈ entries out calls) : e.2.Encodable := by
  have hwidth : e.2.width < 2 ^ 32 := by
    have := width_le_of_mem (List.mem_map_of_mem (f := Prod.snd) he)
    rw [size_applyAll hfits] at hsize
    omega
  obtain ⟨call, hmem, out', later, hi⟩ := exists_call_of_mem_entries he
  refine encodable_of_width (fun x hx => ?_) hwidth
  rw [hx] at hi
  have hcall := hfits call hmem
  rwa [eq_emitNumber_of_instr? hi] at hcall

end Call

/-- **Whatever the order of patches, the code is what has been emitted.** Where opcodes fit their
calls and every forward jump is patched once, short code is listed as the instructions written, each
at the position reported before it was written; a jump goes to its known target, or to the position
at which it was patched. A patch has its slot in the code and changes no byte outside it. -/
theorem emitted_code_is_listed {calls : List Call} (hfits : ∀ call ∈ calls, call.Fits)
    (hcloses : Closes .empty [] calls) (hsize : (applyAll calls .empty).bytes.size < 2 ^ 32) :
    (applyAll calls .empty).finish.instructions = .ok (entries .empty calls) ∧
    (∀ front p back, calls = front ++ .patch p :: back →
      p.slot + 4 ≤ (applyAll front .empty).bytes.size) ∧
    ∀ (out : Emitter) (p : Patch), (out.patch p).bytes.size = out.bytes.size ∧
      ∀ k, k < p.slot ∨ p.slot + 4 ≤ k → (out.patch p).bytes[k]? = out.bytes[k]? := by
  refine ⟨?_, ?_, fun out p => ⟨Emitter.size_overwrite .., fun k hk => ?_⟩⟩
  · rw [entries_eq_placed hfits hsize, Emitter.finish]
    refine Code.instructions_eq_placed_iff.2 ⟨fun i hi => ?_, ?_⟩
    · obtain ⟨e, he, rfl⟩ := List.mem_map.1 hi
      exact encodable_of_mem_entries hfits hsize he
    · exact Draft.empty.toList_applyAll hfits hcloses
  · rintro front p back rfl
    exact Draft.empty.slot_le_of_closes (fun call h => hfits call (List.mem_append_left _ h)) hcloses
  · exact Emitter.getElem?_overwrite _ (by rwa [Emitter.length_addressBytes])

/-- The theorem where two forward jumps cross, with a text and a jump back between the patches. -/
theorem emitted_code_is_listed_of_crossing_jumps :
    let calls : List Call := [.emitForward .jumpIfZero, .emitText "ab", .emitForward .jump,
      .patch ⟨1⟩, .emitVariable .fetch ⟨0⟩, .emitJump .jumpIfNonZero 5, .patch ⟨17⟩, .emit .halt]
    (∀ call ∈ calls, call.Fits) ∧ Closes .empty [] calls ∧
      (applyAll calls .empty).bytes.size < 2 ^ 32 ∧
      (applyAll calls .empty).finish.instructions =
        .ok [(0, .jumpIfZero 21), (5, .push (.text "ab")), (16, .jump 28), (21, .fetch ⟨0⟩),
          (23, .jumpIfNonZero 5), (28, .halt)] := by
  intro calls
  have hfits : ∀ call ∈ calls, call.Fits := by simp [calls, Fits]
  have hcloses : Closes .empty [] calls :=
    .forward <| .write (by simp) (by simp) <| .forward <| .patch (by decide) <|
      .write (by simp) (by simp) <| .write (by simp) (by simp) <| .patch (by decide) <|
      .write (by simp) (by simp) <| .nil _
  have hsize : (applyAll calls .empty).bytes.size < 2 ^ 32 := by decide
  exact ⟨hfits, hcloses, hsize, (emitted_code_is_listed hfits hcloses hsize).1⟩

end Abecedary
