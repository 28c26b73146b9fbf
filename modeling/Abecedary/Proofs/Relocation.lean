import Abecedary.Proofs.Calls
import Abecedary.Proofs.StackHeight

/-!
# Relocation

The code of an expression or a statement does not depend on where it is written, but for the
targets of its jumps: behind other code it is the same code, and its jumps go as much further as
bytes stand in front of it (`Phrase.code_add`, `Code.relocates_of_encodeAll`). Its jumps stay within
it (`Phrase.target_le`).

While it is written, the bytes in front are left alone. The compiler makes its calls of the emitter
in a fixed order (`Stmt.calls`); each forward jump that one of them opens is patched by a later one
(`Stmt.closes_calls`), and so no patch reaches into what has been there before
(`Call.Closes.le_slot`). All of this together is `compiling_relocates`.
-/

namespace Abecedary

open Instr Call

/-! ## Moving instructions -/

namespace Instr

/-- The same instruction in code that begins `d` bytes further on. -/
def moved (d : Address) : Instr → Instr
  | jumpIfZero target => .jumpIfZero (target + d)
  | jumpIfNonZero target => .jumpIfNonZero (target + d)
  | jump target => .jump (target + d)
  | i => i

variable {d : Address} {i : Instr} {is : List Instr}

theorem moved_of_target?_eq_none (h : i.target? = none) : i.moved d = i := by
  cases i <;> first | rfl | cases h

theorem encode_moved {target : Address} (h : i.target? = some target) :
    (i.moved d).encode = i.opcode.byte :: (target + d).bytes := by
  cases i <;> cases h <;> rfl

@[simp] theorem length_encode_moved (d : Address) (i : Instr) :
    (i.moved d).encode.length = i.encode.length := by
  cases i <;> rfl

@[simp] theorem totalWidth_map_moved (d : Address) (is : List Instr) :
    totalWidth (is.map (moved d)) = totalWidth is := by
  induction is with
  | nil => rfl
  | cons i is ih => rw [List.map_cons, totalWidth_cons, totalWidth_cons, ih, width,
      length_encode_moved, width]

theorem map_moved_of_target?_eq_none (h : ∀ i ∈ is, i.target? = none) : is.map (moved d) = is :=
  (List.map_congr_left fun i hi => moved_of_target?_eq_none (h i hi)).trans (List.map_id is)

/-- Moving an instruction changes no byte but the target of a jump. -/
theorem getElem?_encode_moved {k : Nat} (h : i.target?.isSome → k = 0 ∨ 5 ≤ k) :
    (i.moved d).encode[k]? = i.encode[k]? := by
  cases htarget : i.target? with
  | none => rw [moved_of_target?_eq_none htarget]
  | some target =>
    rw [encode_moved htarget, encode_of_target? htarget]
    rcases h (by rw [htarget]; rfl) with rfl | hk
    · rfl
    · rw [List.getElem?_eq_none (by simpa using hk), List.getElem?_eq_none (by simpa using hk)]

/-- Moving instructions changes no byte but the targets of jumps. -/
theorem getElem?_encodeAll_moved {a k : Nat}
    (h : ∀ b i, (b, i) ∈ placed a is → i.target?.isSome → a + k ≤ b ∨ b + 5 ≤ a + k) :
    (encodeAll (is.map (moved d)))[k]? = (encodeAll is)[k]? := by
  induction is generalizing a k with
  | nil => rfl
  | cons i is ih =>
    rw [List.map_cons, encodeAll_cons, encodeAll_cons, List.getElem?_append, List.getElem?_append,
      length_encode_moved]
    split
    · refine getElem?_encode_moved fun hjump => ?_
      have := h a i (by simp) hjump
      omega
    · next hk =>
      -- the byte lies behind the first instruction
      have hplace : a + i.width + (k - i.encode.length) = a + k := by
        rw [width]
        omega
      refine ih (a := a + i.width) fun b j hj hjump => ?_
      rw [hplace]
      exact h b j (by simp [hj]) hjump

end Instr

/-! ## Code at another place -/

/-- Where a statement begins further on, its jumps go further by as much. -/
theorem Stmt.code_add (s : Stmt) (a n : Nat) :
    s.code (a + n) = (s.code a).map (moved (.ofNat n)) := by
  have hexpr (e : Expr) : e.code.map (moved (.ofNat n)) = e.code :=
    map_moved_of_target?_eq_none e.target?_of_mem_code
  -- all that is computed from the address grows by `n`
  have hplace (b x : Nat) : b + n + x = b + x + n := Nat.add_right_comm ..
  have htarget (b : Nat) : UInt32.ofNat (b + n) = .ofNat b + .ofNat n := UInt32.ofNat_add b n
  induction s generalizing a with
  | ifThen c t iht =>
    simp only [code, hplace, htarget, iht, List.map_append, List.map_singleton, moved, hexpr]
  | ifElse c t e iht ihe =>
    simp only [code, hplace, htarget, iht, ihe, List.map_append, List.map_singleton, moved, hexpr]
  | whileDo c b ihb =>
    simp only [code, hplace, htarget, ihb, List.map_append, List.map_singleton, moved, hexpr]
  | doWhile b c ihb =>
    simp only [code, htarget, ihb, List.map_append, List.map_singleton, moved, hexpr]
  | empty => rfl
  | seq first second ihf ihs => simp only [code, hplace, ihf, ihs, List.map_append]
  | expr e => simp only [code, List.map_append, List.map_singleton, moved, hexpr]

/-! ## Phrases -/

/-- A phrase of a program: an expression or a statement. -/
inductive Phrase where
  | expr (e : Expr)
  | stmt (s : Stmt)

namespace Phrase

/-- Writes the code of a phrase. -/
def compile : Phrase → Emitter → Emitter
  | expr e, out => e.compile out
  | stmt s, out => s.compile out

/-- The instructions of a phrase whose code begins at an address. -/
def code : Phrase → (a : Nat) → List Instr
  | expr e, _ => e.code
  | stmt s, a => s.code a

/-- The calls that write the code of a phrase behind what `out` holds. -/
def calls : Phrase → (out : Emitter) → List Call
  | expr e, _ => e.calls
  | stmt s, out => s.calls out

theorem compile_eq_write (x : Phrase) (out : Emitter) :
    x.compile out = out.write (encodeAll (x.code out.bytes.size)) := by
  cases x with
  | expr e => exact e.compile_eq_write out
  | stmt s => exact s.compile_eq_write out

theorem code_add (x : Phrase) (a n : Nat) : x.code (a + n) = (x.code a).map (moved (.ofNat n)) := by
  cases x with
  | expr e => exact (map_moved_of_target?_eq_none e.target?_of_mem_code).symm
  | stmt s => exact s.code_add a n

/-- The code of a phrase on its own. -/
theorem toList_compile_empty (x : Phrase) :
    (x.compile .empty).finish.bytes.toList = encodeAll (x.code 0) := by
  rw [compile_eq_write, Emitter.finish, Emitter.toList_write]
  rfl

theorem size_compile_empty (x : Phrase) :
    (x.compile .empty).finish.size = totalWidth (x.code 0) := by
  rw [Code.size, ← Array.length_toList, toList_compile_empty, length_encodeAll]

/-- Behind other code the code of a phrase is the same code, moved. -/
theorem toList_compile (x : Phrase) (out : Emitter) :
    (x.compile out).finish.bytes.toList =
      out.finish.bytes.toList ++ encodeAll ((x.code 0).map (moved (.ofNat out.finish.size))) := by
  rw [compile_eq_write, Emitter.finish, Emitter.toList_write, ← code_add, Nat.zero_add]
  rfl

/-- **Jumps stay within the code of a phrase**, or go just past it. -/
theorem target_le {x : Phrase} (h : totalWidth (x.code 0) < 2 ^ 32) {i : Instr}
    (hi : i ∈ x.code 0) {target : Address} (ht : i.target? = some target) :
    target.toNat ≤ totalWidth (x.code 0) := by
  cases x with
  | expr e =>
    rw [e.target?_of_mem_code i hi] at ht
    cases ht
  | stmt s =>
    rw [code, Stmt.totalWidth_code] at h ⊢
    obtain ⟨u, b, hu, htarget⟩ := s.jumpsWithin_code 0 i hi target ht
    have hstop := hu.stop_le
    rcases htarget with rfl | rfl
    · have hb : b ≤ s.width := by omega
      rwa [UInt32.toNat_ofNat_of_lt' (hb.trans_lt h)]
    · have hb : b + u.width ≤ s.width := by omega
      rwa [UInt32.toNat_ofNat_of_lt' (hb.trans_lt h)]

theorem pushesConstant_code (x : Phrase) (a : Nat) : ∀ i ∈ x.code a, i.PushesConstant := by
  cases x with
  | expr e => exact e.pushesConstant_code
  | stmt s => exact s.pushesConstant_code a

/-- Short code of a phrase is listed as its instructions. -/
theorem instructions_compile_empty {x : Phrase} (h : totalWidth (x.code 0) < 2 ^ 32) :
    (x.compile .empty).finish.instructions = .ok (placed 0 (x.code 0)) :=
  Code.instructions_eq_placed_iff.2
    ⟨encodable_of_short (x.pushesConstant_code 0) h, x.toList_compile_empty⟩

theorem applyAll_calls (x : Phrase) (out : Emitter) :
    applyAll (x.calls out) out = x.compile out := by
  cases x with
  | expr e => exact e.applyAll_calls out
  | stmt s => exact s.applyAll_calls out

theorem closes_calls (x : Phrase) (out : Emitter) : Closes out [] (x.calls out) := by
  rw [← List.append_nil (x.calls out)]
  cases x with
  | expr e => exact Expr.closes_calls (.nil _)
  | stmt s => exact Stmt.closes_calls (.nil _)

end Phrase

/-! ## Relocated code -/

namespace Code

/-- The code `moved` is the code `own` with other code in front: the front is as it was, the jumps
listed in `es` go as much further as the front is long, and no other byte of `own` is different.
A jump has its target in the four bytes behind its opcode. -/
structure Relocates (own : Code) (es : List (Nat × Instr)) (front moved : Code) : Prop where
  size_eq : moved.size = front.size + own.size
  kept : ∀ k < front.size, moved.bytes[k]? = front.bytes[k]?
  target : ∀ a i target, (a, i) ∈ es → i.target? = some target →
    moved.readWord (front.size + a) (front.size + a + 1) = .ok (front.size + target.toNat)
  other : ∀ k < own.size, (∀ a i, (a, i) ∈ es → i.target?.isSome → k ≤ a ∨ a + 5 ≤ k) →
    moved.bytes[front.size + k]? = own.bytes[k]?

variable {own front moved : Code} {is : List Instr}

/-- A jump that has been moved is read with its new target. -/
theorem readWord_moved {a : Nat} {i : Instr} {target : Address} (ht : i.target? = some target)
    (h : moved.bytes.toList =
      front.bytes.toList ++ encodeAll (is.map (Instr.moved (.ofNat front.size))))
    (hi : (a, i) ∈ placed 0 is) (hbound : front.size + target.toNat < 2 ^ 32) :
    moved.readWord (front.size + a) (front.size + a + 1) = .ok (front.size + target.toNat) := by
  obtain ⟨before, behind, rfl, rfl⟩ := mem_placed.1 hi
  set d := UInt32.ofNat front.size with hd
  have hnew : (target + d).toNat = front.size + target.toNat := by
    have hfront : front.size < 2 ^ 32 := (Nat.le_add_right ..).trans_lt hbound
    rw [hd, UInt32.toNat_add, UInt32.toNat_ofNat_of_lt' hfront, Nat.add_comm,
      Nat.mod_eq_of_lt hbound]
  have hsplit : moved.bytes.toList =
      (front.bytes.toList ++ encodeAll (before.map (Instr.moved d)) ++ [i.opcode.byte]) ++
        ((target + d).bytes ++ encodeAll (behind.map (Instr.moved d))) := by
    rw [h, List.map_append, List.map_cons, encodeAll_append, encodeAll_cons, encode_moved ht]
    simp
  have hhas := has_of_eq hsplit
  simp only [List.length_append, Array.length_toList, List.length_singleton, length_encodeAll,
    totalWidth_map_moved] at hhas
  rw [← hnew]
  refine readWord_of_has ?_ (target + d).toNat_lt _
  simpa [Code.size, Address.bytes] using hhas

/-- What is written as moved instructions is the relocated code. -/
theorem relocates_of_encodeAll (hown : own.bytes.toList = encodeAll is)
    (hmoved : moved.bytes.toList =
      front.bytes.toList ++ encodeAll (is.map (Instr.moved (.ofNat front.size))))
    (hbound : ∀ i ∈ is, ∀ target, i.target? = some target →
      front.size + target.toNat < 2 ^ 32) :
    own.Relocates (placed 0 is) front moved where
  size_eq := by
    simp only [Code.size, ← Array.length_toList, hmoved, hown, List.length_append,
      length_encodeAll, totalWidth_map_moved]
  kept k hk := by
    rw [← Array.getElem?_toList, ← Array.getElem?_toList, hmoved, List.getElem?_append_left]
    simpa [Code.size] using hk
  target a i target hi ht := by
    refine readWord_moved ht hmoved hi (hbound i ?_ target ht)
    rw [← map_snd_placed 0 is]
    exact List.mem_map_of_mem (f := Prod.snd) hi
  other k _ hk := by
    rw [← Array.getElem?_toList, ← Array.getElem?_toList, hmoved, hown,
      List.getElem?_append_right (by simp [Code.size])]
    have hplace : front.size + k - front.bytes.toList.length = k := by simp [Code.size]
    rw [hplace]
    refine getElem?_encodeAll_moved (a := 0) fun b i hi hjump => ?_
    rw [Nat.zero_add]
    exact hk b i hi hjump

end Code

/-- **Relocation.** Behind any other code, a phrase has the code that it has on its own, with its
jumps going as much further as there are bytes in front; the bytes in front are left as they are. On
its own, no jump goes further than just past the code. The calls by which the compiler writes it
patch each forward jump that they open, once, and never go below the place where they begin. -/
theorem compiling_relocates {x : Phrase} {out : Emitter}
    (h : out.finish.size + (x.compile .empty).finish.size < 2 ^ 32) :
    ∃ es, (x.compile .empty).finish.instructions = .ok es ∧
      (x.compile .empty).finish.Relocates es out.finish (x.compile out).finish ∧
      (∀ a i target, (a, i) ∈ es → i.target? = some target →
        target.toNat ≤ (x.compile .empty).finish.size) ∧
      applyAll (x.calls out) out = x.compile out ∧ Closes out [] (x.calls out) ∧
      ∀ p, .patch p ∈ x.calls out → out.finish.size ≤ p.slot := by
  rw [x.size_compile_empty] at h ⊢
  have hshort : totalWidth (x.code 0) < 2 ^ 32 := (Nat.le_add_left ..).trans_lt h
  have hwithin (i : Instr) (hi : i ∈ x.code 0) (target : Address) (ht : i.target? = some target) :
      target.toNat ≤ totalWidth (x.code 0) := Phrase.target_le hshort hi ht
  refine ⟨placed 0 (x.code 0), Phrase.instructions_compile_empty hshort, ?_, ?_,
    x.applyAll_calls out, x.closes_calls out, fun p hp => ?_⟩
  · refine Code.relocates_of_encodeAll x.toList_compile_empty (x.toList_compile out) ?_
    intro i hi target ht
    exact (Nat.add_le_add_left (hwithin i hi target ht) _).trans_lt h
  · intro a i target hi ht
    obtain ⟨front, back, hcode, -⟩ := mem_placed.1 hi
    exact hwithin i (by simp [hcode]) target ht
  · exact (x.closes_calls out).le_slot le_rfl (by simp) hp

/-- The loop `do if (a) ; else b; while (a);` behind three bytes that are no instruction. -/
theorem compiling_relocates_loop :
    let a : Variable := ⟨0⟩
    let b : Variable := ⟨1⟩
    let x : Phrase := .stmt (.doWhile (.ifElse (.var a) .empty (.expr (.var b))) (.var a))
    let out : Emitter := ⟨#[255, 9, 0]⟩
    out.finish.size + (x.compile .empty).finish.size < 2 ^ 32 ∧
      (x.compile .empty).finish.instructions = .ok [(0, .fetch a), (2, .jumpIfZero 12),
        (7, .jump 15), (12, .fetch b), (14, .pop), (15, .fetch a), (17, .jumpIfNonZero 0)] ∧
      (x.compile out).finish.bytes[1]? = some 9 ∧
      (x.compile out).finish.readWord 5 6 = .ok 15 ∧
      (x.compile out).finish.readWord 10 11 = .ok 18 ∧
      (x.compile out).finish.readWord 20 21 = .ok 3 ∧ Closes out [] (x.calls out) := by
  intro a b x out
  have h : out.finish.size + (x.compile .empty).finish.size < 2 ^ 32 := by
    rw [x.size_compile_empty]
    decide
  have hlisting : (x.compile .empty).finish.instructions = .ok [(0, .fetch a),
      (2, .jumpIfZero 12), (7, .jump 15), (12, .fetch b), (14, .pop), (15, .fetch a),
      (17, .jumpIfNonZero 0)] :=
    Phrase.instructions_compile_empty (x := x) (by decide)
  obtain ⟨es, hes, hrelocates, -, -, hcloses, -⟩ := compiling_relocates h
  cases hlisting.symm.trans hes
  exact ⟨h, hlisting, hrelocates.kept 1 (by decide),
    hrelocates.target 2 (.jumpIfZero 12) 12 (by simp) rfl,
    hrelocates.target 7 (.jump 15) 15 (by simp) rfl,
    hrelocates.target 17 (.jumpIfNonZero 0) 0 (by simp) rfl, hcloses⟩

end Abecedary
