import Abecedary.Code.Compile
import Abecedary.Proofs.Encoding
import Abecedary.Proofs.WholeNumber

/-!
# The layout of compiled code

The code of a program as a list of instructions, by recursion on the tree: `Expr.code` for an
expression, and `Stmt.code` for a statement that begins at a given address. Sizes are known before
the code is (`Stmt.width`), so every jump is given its target at once. The one pass of the
compiler, which leaves targets open and fills them in later, writes the same bytes
(`Stmt.compile_eq_write`).
-/

namespace Abecedary

/-! ## The code of a tree -/

/-- The instructions of an expression. -/
def Expr.code : Expr → List Instr
  | var v => [.fetch v]
  | constant n => [.push (.number (.ofInt64 n))]
  | text s => [.push (.text s)]
  | binary left op right => left.code ++ right.code ++ [.apply op]
  | assign target value => value.code ++ [.store target]

/-- How many bytes the code of an expression has. -/
def Expr.width (e : Expr) : Nat := Instr.totalWidth e.code

/-- How many bytes the code of a statement has. A jump takes five. -/
def Stmt.width : Stmt → Nat
  | ifThen c t => c.width + 5 + t.width
  | ifElse c t e => c.width + 5 + t.width + 5 + e.width
  | whileDo c b => c.width + 5 + b.width + 5
  | doWhile b c => b.width + c.width + 5
  | empty => 0
  | seq first second => first.width + second.width
  | expr e => e.width + 1

/-- The instructions of a statement whose code begins at the address `a`. -/
def Stmt.code : Stmt → (a : Nat) → List Instr
  | ifThen c t, a =>
    c.code ++ [.jumpIfZero (.ofNat (a + c.width + 5 + t.width))] ++ t.code (a + c.width + 5)
  | ifElse c t e, a =>
    c.code ++ [.jumpIfZero (.ofNat (a + c.width + 5 + t.width + 5))] ++
      t.code (a + c.width + 5) ++
      [.jump (.ofNat (a + c.width + 5 + t.width + 5 + e.width))] ++
      e.code (a + c.width + 5 + t.width + 5)
  | whileDo c b, a =>
    c.code ++ [.jumpIfZero (.ofNat (a + c.width + 5 + b.width + 5))] ++
      b.code (a + c.width + 5) ++ [.jump (.ofNat a)]
  | doWhile b c, a => b.code a ++ c.code ++ [.jumpIfNonZero (.ofNat a)]
  | empty, _ => []
  | seq first second, a => first.code a ++ second.code (a + first.width)
  | expr e, _ => e.code ++ [.pop]

/-- The instructions of a program. -/
def Program.layout (p : Program) : List Instr := p.body.code 0 ++ [.halt]

@[simp] theorem Instr.width_jumpIfZero (t : Address) : (jumpIfZero t).width = 5 := rfl

@[simp] theorem Instr.width_jumpIfNonZero (t : Address) : (jumpIfNonZero t).width = 5 := rfl

@[simp] theorem Instr.width_jump (t : Address) : (jump t).width = 5 := rfl

@[simp] theorem Instr.width_pop : pop.width = 1 := rfl

@[simp] theorem Instr.width_halt : halt.width = 1 := rfl

/-- The width of a statement is that of its code, wherever it begins. -/
@[simp] theorem Stmt.totalWidth_code (s : Stmt) (a : Nat) :
    Instr.totalWidth (s.code a) = s.width := by
  induction s generalizing a with
  | ifThen c t iht => simp [code, width, iht, Expr.width, Nat.add_assoc]
  | ifElse c t e iht ihe => simp [code, width, iht, ihe, Expr.width, Nat.add_assoc]
  | whileDo c b ihb => simp [code, width, ihb, Expr.width, Nat.add_assoc]
  | doWhile b c ihb => simp [code, width, ihb, Expr.width, Nat.add_assoc]
  | empty => rfl
  | seq first second ihf ihs => simp [code, width, ihf, ihs]
  | expr e => simp [code, width, Expr.width]

/-! ## Writing it in one pass -/

namespace Emitter

@[ext] theorem ext {out out' : Emitter} (h : out.bytes.toList = out'.bytes.toList) :
    out = out' := by
  cases out
  cases out'
  rw [mk.injEq]
  exact Array.toList_inj.1 h

@[simp] theorem toList_write (out : Emitter) (bs : List UInt8) :
    (out.write bs).bytes.toList = out.bytes.toList ++ bs := by
  simp [write]

@[simp] theorem size_write (out : Emitter) (bs : List UInt8) :
    (out.write bs).bytes.size = out.bytes.size + bs.length := by
  rw [← Array.length_toList, toList_write, List.length_append, Array.length_toList]

@[simp] theorem write_nil (out : Emitter) : out.write [] = out := by
  ext1
  simp

@[simp] theorem write_write (out : Emitter) (bs ds : List UInt8) :
    (out.write bs).write ds = out.write (bs ++ ds) := by
  ext1
  simp

theorem emit_eq_write (out : Emitter) (op : Opcode) : out.emit op = out.write [op.byte] := by
  ext1
  simp [emit]

theorem emitForward_eq_write (out : Emitter) (op : Opcode) :
    out.emitForward op = (⟨out.bytes.size + 1⟩, out.write (op.byte :: [0, 0, 0, 0])) := by
  simp [emitForward, emit_eq_write]

theorem emitJump_eq_write (out : Emitter) (op : Opcode) (target : Address) :
    out.emitJump op target = out.write (op.byte :: target.bytes) := by
  simp [emitJump, emit_eq_write]

/-- Overwriting replaces as many bytes as it writes and no others. -/
theorem toList_overwrite {bytes : Array UInt8} {front old back new : List UInt8}
    (h : bytes.toList = front ++ (old ++ back)) (hlen : new.length = old.length) :
    (overwrite bytes front.length new).toList = front ++ (new ++ back) := by
  induction new generalizing bytes front old with
  | nil =>
    rw [List.length_nil] at hlen
    rw [overwrite, h, List.length_eq_zero_iff.1 hlen.symm]
  | cons b new ih =>
    cases old with
    | nil => simp at hlen
    | cons d old =>
      have hset : (bytes.setIfInBounds front.length b).toList =
          (front ++ [b]) ++ (old ++ back) := by
        simp [h]
      have := ih hset (by simpa using hlen)
      simpa [overwrite] using this

/-- A forward jump that is filled in goes to the position it is filled in at, and what was written
behind it stays. -/
theorem patch_forward {out : Emitter} {op : Opcode} {bs : List UInt8} {p : Patch}
    (hp : p.slot = out.bytes.size + 1) :
    (out.write (op.byte :: [0, 0, 0, 0] ++ bs)).patch p =
      out.write (op.byte :: Address.bytes (.ofNat (out.bytes.size + 5 + bs.length)) ++ bs) := by
  ext1
  have h : (out.write (op.byte :: [0, 0, 0, 0] ++ bs)).bytes.toList =
      (out.bytes.toList ++ [op.byte]) ++ ([0, 0, 0, 0] ++ bs) := by
    simp
  have hpos : (out.write (op.byte :: [0, 0, 0, 0] ++ bs)).position =
      UInt32.ofNat (out.bytes.size + 5 + bs.length) := by
    rw [position, size_write]
    congr 1
    simp
    omega
  have hlength : (Address.bytes (UInt32.ofNat (out.bytes.size + 5 + bs.length))).length =
      [0, 0, 0, 0].length := Code.length_littleEndian ..
  have := toList_overwrite h hlength
  rw [patch, hpos, hp]
  simpa using this

@[simp] theorem length_addressBytes (a : Address) : (Address.bytes a).length = 4 :=
  Code.length_littleEndian ..

/-- The bytes of a jump. -/
theorem encode_jumps (t : Address) :
    (Instr.jumpIfZero t).encode = Opcode.jumpIfZero.byte :: t.bytes ∧
      (Instr.jumpIfNonZero t).encode = Opcode.jumpIfNonZero.byte :: t.bytes ∧
      (Instr.jump t).encode = Opcode.jump.byte :: t.bytes := ⟨rfl, rfl, rfl⟩

end Emitter

theorem Expr.compile_eq_write (e : Expr) (out : Emitter) :
    e.compile out = out.write (Instr.encodeAll e.code) := by
  induction e generalizing out with
  | var v =>
    rw [compile, Emitter.emitVariable, Emitter.emit_eq_write, Emitter.write_write]
    rfl
  | constant n =>
    rw [compile, Emitter.emitNumber, Emitter.emit_eq_write, Emitter.write_write]
    simp [code, Instr.encode, Instr.operand, Instr.opcode]
  | text s =>
    rw [compile, Emitter.emitText, Emitter.emit_eq_write, Emitter.write_write]
    simp [code, Instr.encode, Instr.operand, Instr.opcode]
  | binary left op right ihl ihr =>
    rw [compile_binary, ihl, ihr, Emitter.emit_eq_write]
    simp [code, Instr.encode, Instr.operand, Instr.opcode]
  | assign target value ih =>
    rw [compile, ih, Emitter.emitVariable, Emitter.emit_eq_write]
    simp [code, Instr.encode, Instr.operand, Instr.opcode]

theorem Instr.length_encodeAll (is : List Instr) : (encodeAll is).length = totalWidth is := rfl

/-- **The compiler writes the code of a statement**, wherever it writes it. -/
theorem Stmt.compile_eq_write (s : Stmt) (out : Emitter) :
    s.compile out = out.write (Instr.encodeAll (s.code out.bytes.size)) := by
  induction s generalizing out with
  | ifThen c t iht =>
    rw [compile, Expr.compile_eq_write, Emitter.emitForward_eq_write]
    dsimp only
    rw [iht, Emitter.write_write, Emitter.patch_forward rfl, Emitter.write_write]
    simp [code, Emitter.encode_jumps, Instr.length_encodeAll, Expr.width, Nat.add_assoc]
  | ifElse c t e iht ihe =>
    rw [compile, Expr.compile_eq_write]
    simp only [Emitter.emitForward_eq_write]
    rw [iht, Emitter.write_write, Emitter.write_write, Emitter.patch_forward rfl, ihe]
    -- seen from the second jump, all that lies before it has been written already
    have hsplit (o : Emitter) (front bs : List UInt8) :
        (o.write (front ++ [Opcode.jump.byte, 0, 0, 0, 0])).write bs =
          (o.write front).write (Opcode.jump.byte :: [0, 0, 0, 0] ++ bs) := by
      simp
    rw [← List.append_assoc, hsplit, Emitter.patch_forward (by simp; omega)]
    have hsize (x y : Nat) : out.bytes.size + (x + (4 + (y + 6))) =
        out.bytes.size + (x + (5 + (y + 5))) := by omega
    simp [code, Emitter.encode_jumps, Instr.length_encodeAll, Expr.width, Nat.add_assoc, hsize,
      -UInt32.ofNat_add]
  | whileDo c b ihb =>
    rw [compile, Expr.compile_eq_write, Emitter.emitForward_eq_write]
    dsimp only
    rw [ihb, Emitter.emitJump_eq_write, Emitter.write_write, Emitter.write_write,
      Emitter.patch_forward rfl, Emitter.write_write]
    simp [code, Emitter.encode_jumps, Emitter.position, Instr.length_encodeAll, Expr.width,
      Nat.add_assoc]
  | doWhile b c ihb =>
    rw [compile, Expr.compile_eq_write, Emitter.emitJump_eq_write, ihb]
    simp [code, Emitter.encode_jumps, Emitter.position]
  | empty =>
    rw [compile, code, Instr.encodeAll_nil, Emitter.write_nil]
  | seq first second ihf ihs =>
    rw [compile_seq, ihf, ihs]
    simp [code, Instr.length_encodeAll]
  | expr e =>
    rw [compile, Expr.compile_eq_write, Emitter.emit_eq_write]
    simp [code, Instr.encode, Instr.operand, Instr.opcode]

/-! ## The code of a program -/

theorem Instr.width_le_of_mem {i : Instr} {is : List Instr} (h : i ∈ is) :
    i.width ≤ totalWidth is := by
  obtain ⟨front, back, rfl⟩ := List.append_of_mem h
  simp only [totalWidth_append, totalWidth_cons]
  omega

/-- What an instruction of a layout can push: the number nearest to a constant, or a text. -/
def Instr.PushesConstant : Instr → Prop
  | push (.number x) => ∃ n, x = .ofInt64 n
  | _ => True

/-- A constant is told from a text by the decoder, and so is a short text from a number. -/
theorem Instr.PushesConstant.encodable {i : Instr} (h : i.PushesConstant)
    (htext : ∀ s, i = push (.text s) → (Text.bytes s).length < 2 ^ 32) : i.Encodable := by
  match i with
  | push (.number x) =>
    obtain ⟨n, rfl⟩ := h
    exact Number.take_bytes_ofInt64_ne_textTag n
  | push (.text s) => exact htext s rfl
  | fetch _ | store _ | pop | apply _ | jumpIfZero _ | jumpIfNonZero _ | jump _ | halt => trivial

/-- Short code has only short texts in it. -/
theorem Instr.encodable_of_short {is : List Instr} (hpush : ∀ i ∈ is, i.PushesConstant)
    (h : totalWidth is < 2 ^ 32) : ∀ i ∈ is, i.Encodable := by
  refine fun i hi => (hpush i hi).encodable fun s hs => ?_
  rw [hs] at hi
  exact ((length_bytes_lt_width s).trans_le (width_le_of_mem hi)).trans h

/-- What holds of every instruction that the code of an expression is made of. -/
theorem Expr.forall_mem_code {P : Instr → Prop} (hfetch : ∀ v, P (.fetch v))
    (hstore : ∀ v, P (.store v)) (hnumber : ∀ n, P (.push (.number (.ofInt64 n))))
    (htext : ∀ s, P (.push (.text s))) (happly : ∀ op, P (.apply op)) (e : Expr) :
    ∀ i ∈ e.code, P i := by
  induction e with
  | var v => simpa [code] using hfetch v
  | constant n => simpa [code] using hnumber n
  | text s => simpa [code] using htext s
  | binary left op right ihl ihr =>
    simp only [code, List.forall_mem_append, List.forall_mem_singleton]
    exact ⟨⟨ihl, ihr⟩, happly op⟩
  | assign target value ih =>
    simp only [code, List.forall_mem_append, List.forall_mem_singleton]
    exact ⟨ih, hstore target⟩

/-- What holds of every instruction that the code of a statement is made of. -/
theorem Stmt.forall_mem_code {P : Instr → Prop} (hexpr : ∀ e : Expr, ∀ i ∈ e.code, P i)
    (hpop : P .pop) (hjump : ∀ i : Instr, i.target?.isSome → P i) (s : Stmt) (a : Nat) :
    ∀ i ∈ s.code a, P i := by
  induction s generalizing a with
  | ifThen c t iht =>
    simp only [code, List.forall_mem_append, List.forall_mem_singleton]
    exact ⟨⟨hexpr c, hjump _ rfl⟩, iht _⟩
  | ifElse c t e iht ihe =>
    simp only [code, List.forall_mem_append, List.forall_mem_singleton]
    exact ⟨⟨⟨⟨hexpr c, hjump _ rfl⟩, iht _⟩, hjump _ rfl⟩, ihe _⟩
  | whileDo c b ihb =>
    simp only [code, List.forall_mem_append, List.forall_mem_singleton]
    exact ⟨⟨⟨hexpr c, hjump _ rfl⟩, ihb _⟩, hjump _ rfl⟩
  | doWhile b c ihb =>
    simp only [code, List.forall_mem_append, List.forall_mem_singleton]
    exact ⟨⟨ihb _, hexpr c⟩, hjump _ rfl⟩
  | empty => simp [code]
  | seq first second ihf ihs =>
    simp only [code, List.forall_mem_append]
    exact ⟨ihf _, ihs _⟩
  | expr e =>
    simp only [code, List.forall_mem_append, List.forall_mem_singleton]
    exact ⟨hexpr e, hpop⟩

theorem Expr.pushesConstant_code (e : Expr) : ∀ i ∈ e.code, i.PushesConstant :=
  e.forall_mem_code (fun _ => trivial) (fun _ => trivial) (fun n => ⟨n, rfl⟩) (fun _ => trivial)
    fun _ => trivial

theorem Stmt.pushesConstant_code (s : Stmt) (a : Nat) : ∀ i ∈ s.code a, i.PushesConstant := by
  refine s.forall_mem_code Expr.pushesConstant_code trivial (fun i hi => ?_) a
  cases i with
  | push => cases hi
  | _ => trivial

namespace Program

theorem pushesConstant_layout (p : Program) : ∀ i ∈ p.layout, i.PushesConstant := by
  simp only [layout, List.forall_mem_append, List.forall_mem_singleton]
  exact ⟨p.body.pushesConstant_code 0, trivial⟩

/-- **The code of a program is its layout.** -/
theorem toList_compile (p : Program) : p.compile.bytes.toList = Instr.encodeAll p.layout := by
  rw [compile, Stmt.compile_eq_write, Emitter.emit_eq_write, Emitter.write_write]
  simp [Emitter.finish, Emitter.empty, layout, Instr.encode, Instr.operand, Instr.opcode]

theorem size_compile (p : Program) : p.compile.size = p.body.width + 1 := by
  rw [Code.size, ← Array.length_toList, toList_compile, Instr.length_encodeAll]
  simp [layout]

theorem has_layout (p : Program) : p.compile.Has 0 (Instr.encodeAll p.layout) := by
  have hall : p.compile.bytes.toList = [] ++ (Instr.encodeAll p.layout ++ []) := by
    simp [toList_compile]
  exact Code.has_of_eq hall

/-- If the texts of a program are short, the decoder tells each of its instructions. -/
theorem holds_layout_of_texts {p : Program}
    (h : ∀ s, .push (.text s) ∈ p.layout → (Text.bytes s).length < 2 ^ 32) :
    p.compile.Holds 0 p.layout := by
  refine ⟨p.has_layout, fun i hi => (p.pushesConstant_layout i hi).encodable fun s hs => ?_⟩
  exact h s (hs ▸ hi)

theorem holds_layout {p : Program} (h : p.compile.size < 2 ^ 32) :
    p.compile.Holds 0 p.layout := by
  refine ⟨p.has_layout, Instr.encodable_of_short p.pushesConstant_layout ?_⟩
  rwa [← Instr.length_encodeAll, ← toList_compile, Array.length_toList]

end Program

end Abecedary
