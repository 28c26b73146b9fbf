import Mathlib.Algebra.Order.Ring.Nat
import Abecedary.Code.Listing

/-!
# The encoding of instructions

`Instr.encode` gives the bytes of an instruction, its opcode and its operand. Where a code has the
bytes of an instruction, the decoder finds the instruction (`Code.decodeAt_encode`), provided that
what it pushes is `Encodable`: a text whose length fits into its word, or a number that does not
begin with the tag of a text. `Code.Holds c a is` says that the instructions `is` lie in the code
one behind the other from the address `a` on.
-/

namespace Abecedary

namespace Instr

/-- The bytes behind the opcode. -/
def operand : Instr → List UInt8
  | fetch v => [UInt8.ofNat v.index]
  | store v => [UInt8.ofNat v.index]
  | push (.number x) => Code.bigEndian 8 x.bits.toNat
  | push (.text s) =>
    Code.textTag ++ Code.littleEndian 4 (Text.bytes s).length ++ Text.bytes s
  | pop => []
  | apply _ => []
  | jumpIfZero target => Code.littleEndian 4 target.toNat
  | jumpIfNonZero target => Code.littleEndian 4 target.toNat
  | jump target => Code.littleEndian 4 target.toNat
  | halt => []

/-- The bytes of an instruction. -/
def encode (i : Instr) : List UInt8 := i.opcode.byte :: i.operand

/-- How many bytes an instruction has. -/
def width (i : Instr) : Nat := i.encode.length

theorem width_pos (i : Instr) : 0 < i.width := Nat.succ_pos _

/-- Whether the decoder tells the literal from the other kind: the length of a text fits into four
bytes, and a number does not begin with the tag of a text. -/
def Encodable : Instr → Prop
  | push (.number x) => (Code.bigEndian 8 x.bits.toNat).take 4 ≠ Code.textTag
  | push (.text s) => (Text.bytes s).length < 2 ^ 32
  | _ => True

theorem length_bytes_lt_width (s : String) : (Text.bytes s).length < (push (.text s)).width := by
  simp only [width, encode, operand, List.length_cons, List.length_append]
  omega

/-- A short instruction has no long text. -/
theorem encodable_of_width {i : Instr}
    (hnumber : ∀ x, i = push (.number x) → (push (.number x)).Encodable) (h : i.width < 2 ^ 32) :
    i.Encodable := by
  match i with
  | push (.number x) => exact hnumber x rfl
  | push (.text s) => exact (length_bytes_lt_width s).trans h
  | fetch _ | store _ | pop | apply _ | jumpIfZero _ | jumpIfNonZero _ | jump _ | halt => trivial

end Instr

namespace Code

variable {c : Code} {a : Nat}

/-! ## Bytes at an address -/

/-- The bytes `bs` lie in the code from the address `a` on. -/
def Has (c : Code) (a : Nat) (bs : List UInt8) : Prop :=
  a ≤ c.size ∧ bs <+: c.bytes.toList.drop a

theorem Has.le_size {bs : List UInt8} (h : c.Has a bs) : a + bs.length ≤ c.size := by
  obtain ⟨ha, hbs⟩ := h
  have := hbs.length_le
  simp only [List.length_drop, Array.length_toList] at this
  simp only [size] at *
  omega

theorem has_append {bs ds : List UInt8} :
    c.Has a (bs ++ ds) ↔ c.Has a bs ∧ c.Has (a + bs.length) ds := by
  constructor
  · intro h
    have hle := h.le_size
    obtain ⟨ha, rest, hrest⟩ := h
    rw [List.length_append] at hle
    refine ⟨⟨ha, ds ++ rest, by rw [← hrest, List.append_assoc]⟩, by omega, rest, ?_⟩
    rw [← List.drop_drop, ← hrest, List.append_assoc, List.drop_left]
  · rintro ⟨⟨ha, rest, hrest⟩, -, rest', hrest'⟩
    refine ⟨ha, rest', ?_⟩
    rw [← List.drop_drop, ← hrest, List.drop_left] at hrest'
    rw [List.append_assoc, hrest', hrest]

theorem has_cons {b : UInt8} {bs : List UInt8} :
    c.Has a (b :: bs) ↔ c.Has a [b] ∧ c.Has (a + 1) bs := by
  rw [← List.singleton_append, has_append, List.length_singleton]

/-- What is written into a code lies there. -/
theorem has_of_eq {pre bs post : List UInt8} (h : c.bytes.toList = pre ++ (bs ++ post)) :
    c.Has pre.length bs := by
  refine ⟨?_, post, by rw [h, List.drop_left]⟩
  have := congrArg List.length h
  simp only [List.length_append, Array.length_toList] at this
  simp only [size]
  omega

theorem read_of_has {bs : List UInt8} (h : c.Has a bs) (start : Nat) :
    c.read start a bs.length = .ok bs := by
  obtain ⟨rest, hrest⟩ := h.2
  have hw : c.window? a bs.length = some bs := by
    rw [window?, if_pos h.le_size]
    simp [← hrest]
  rw [read, hw]

theorem readByte_of_has {b : UInt8} (h : c.Has a [b]) (start : Nat) :
    c.readByte start a = .ok b := by
  obtain ⟨rest, hrest⟩ := h.2
  have hb : c.bytes[a]? = some b := by
    have := congrArg (·[0]?) hrest
    simpa using this.symm
  rw [readByte, hb]

/-- A word of four bytes gives back as much of a number as it holds. -/
theorem readWord_littleEndian {n : Nat} (h : c.Has a (littleEndian 4 n)) (start : Nat) :
    c.readWord start a = .ok (n % 2 ^ 32) := by
  have hr := read_of_has h start
  rw [length_littleEndian] at hr
  rw [readWord, hr]
  show Except.ok (ofLittleEndian (littleEndian 4 n)) = _
  rw [ofLittleEndian_littleEndian, Nat.one_shiftLeft]

theorem readWord_of_has {n : Nat} (h : c.Has a (littleEndian 4 n)) (hn : n < 2 ^ 32) (start : Nat) :
    c.readWord start a = .ok n := by
  rw [readWord_littleEndian h, Nat.mod_eq_of_lt hn]

/-! ## Decoding -/

theorem readVariable_of_has {v : Variable} (h : c.Has (a + 1) [UInt8.ofNat v.index]) :
    c.readVariable a = .ok v := by
  have hv : Variable.ofIndex? (UInt8.ofNat v.index) = some v := by
    have hlt := v.index.isLt
    have hmod : (v.index : Nat) % 256 = v.index := Nat.mod_eq_of_lt (by omega)
    simp [Variable.ofIndex?, hmod, hlt]
  refine bind_eq_ok.2 ⟨UInt8.ofNat v.index, readByte_of_has h a, ?_⟩
  rw [hv]
  rfl

/-- A number is read in two halves, the first of which is not the tag of a text. -/
theorem readLiteral_of_has_number {x : Number}
    (h : c.Has (a + 1) (Instr.push (.number x)).operand)
    (hx : (Instr.push (.number x)).Encodable) :
    c.readLiteral a = .ok (.number x, a + (Instr.push (.number x)).width) := by
  set bits := bigEndian 8 x.bits.toNat with hbits
  have hlen : bits.length = 8 := length_bigEndian ..
  have hsplit : bits = bits.take 4 ++ bits.drop 4 := (List.take_append_drop 4 bits).symm
  have h' : c.Has (a + 1) (bits.take 4 ++ bits.drop 4) := by rw [← hsplit]; exact h
  obtain ⟨hfront, hback⟩ := has_append.1 h'
  have hfront' : c.read a (a + 1) 4 = .ok (bits.take 4) := by
    simpa [hlen] using read_of_has hfront a
  have hback' : c.read a (a + 5) 4 = .ok (bits.drop 4) := by
    simpa [hlen, Nat.add_assoc] using read_of_has hback a
  have hvalue : UInt64.ofNat (ofBigEndian (bits.take 4 ++ bits.drop 4)) = x.bits := by
    rw [← hsplit, hbits, ofBigEndian_bigEndian]
    apply UInt64.toNat_inj.1
    simp
  refine bind_eq_ok.2 ⟨_, hfront', ?_⟩
  rw [if_neg hx]
  refine bind_eq_ok.2 ⟨_, hback', ?_⟩
  rw [hvalue]
  rfl

/-- Behind the tag of a text as many bytes are read as its length says, modulo `2 ^ 32`. -/
theorem readLiteral_of_has_tagged {n : Nat} {bs : List UInt8}
    (h : c.Has (a + 1) (textTag ++ littleEndian 4 n ++ bs)) (hn : bs.length = n % 2 ^ 32) :
    c.readLiteral a =
      match Text.ofBytes? bs with
      | some s => .ok (.text s, a + 9 + bs.length)
      | none => .error ⟨.invalidText, a⟩ := by
  obtain ⟨h', hbytes⟩ := has_append.1 h
  obtain ⟨htag, hlength⟩ := has_append.1 h'
  have htag' : c.read a (a + 1) 4 = .ok textTag := read_of_has htag a
  have hlength' : c.readWord a (a + 5) = .ok bs.length := by
    rw [hn]
    exact readWord_littleEndian hlength a
  have hbytes' : c.read a (a + 9) bs.length = .ok bs := by
    refine read_of_has ?_ a
    simpa [textTag, Nat.add_assoc] using hbytes
  simp only [readLiteral, htag', hlength', hbytes', bind, Except.bind, if_true]
  cases Text.ofBytes? bs <;> rfl

/-- A text is read behind its tag and its length. -/
theorem readLiteral_of_has_text {s : String} (h : c.Has (a + 1) (Instr.push (.text s)).operand)
    (hs : (Text.bytes s).length < 2 ^ 32) :
    c.readLiteral a = .ok (.text s, a + (Instr.push (.text s)).width) := by
  rw [readLiteral_of_has_tagged h (Nat.mod_eq_of_lt hs).symm, Text.ofBytes?_eq_some_iff.2 rfl]
  simp [Instr.width, Instr.encode, Instr.operand, textTag]
  omega

theorem readLiteral_of_has {x : Value} (h : c.Has (a + 1) (Instr.push x).operand)
    (hx : (Instr.push x).Encodable) : c.readLiteral a = .ok (x, a + (Instr.push x).width) := by
  cases x with
  | number x => exact readLiteral_of_has_number h hx
  | text s => exact readLiteral_of_has_text h hx

/-- The decoder reads a literal behind the opcode of a push. -/
theorem decodeAt_push (h : c.Has a [Opcode.push.byte]) :
    c.decodeAt a = (do
      let (literal, next) ← c.readLiteral a
      return (.push literal, next)) := by
  have hbyte := readByte_of_has h a
  rw [decodeAt, hbyte]
  rfl

/-- **The decoder finds an instruction where its bytes lie.** -/
theorem decodeAt_encode {i : Instr} (h : c.Has a i.encode) (hi : i.Encodable) :
    c.decodeAt a = .ok (i, a + i.width) := by
  obtain ⟨hop, hoperand⟩ := has_cons.1 h
  have hbyte := readByte_of_has hop a
  have hword : ∀ target : Address, c.Has (a + 1) (littleEndian 4 target.toNat) →
      c.readWord a (a + 1) = .ok target.toNat :=
    fun target ht => readWord_of_has ht target.toNat_lt a
  rw [decodeAt, bind_eq_ok]
  refine ⟨i.opcode.byte, hbyte, ?_⟩
  rw [Opcode.ofByte?_byte]
  cases i with
  | fetch v =>
    exact bind_eq_ok.2 ⟨v, readVariable_of_has hoperand, rfl⟩
  | store v =>
    exact bind_eq_ok.2 ⟨v, readVariable_of_has hoperand, rfl⟩
  | push x =>
    exact bind_eq_ok.2 ⟨_, readLiteral_of_has hoperand hi, rfl⟩
  | pop => rfl
  | apply op => cases op <;> rfl
  | jumpIfZero target =>
    refine bind_eq_ok.2 ⟨_, hword target hoperand, ?_⟩
    simp [pure_eq_ok, Instr.width, Instr.encode, Instr.operand]
  | jumpIfNonZero target =>
    refine bind_eq_ok.2 ⟨_, hword target hoperand, ?_⟩
    simp [pure_eq_ok, Instr.width, Instr.encode, Instr.operand]
  | jump target =>
    refine bind_eq_ok.2 ⟨_, hword target hoperand, ?_⟩
    simp [pure_eq_ok, Instr.width, Instr.encode, Instr.operand]
  | halt => rfl

end Code

/-! ## Instructions at an address -/

/-- The bytes of some instructions, one behind the other. -/
def Instr.encodeAll (is : List Instr) : List UInt8 := is.flatMap encode

@[simp] theorem Instr.encodeAll_nil : encodeAll [] = [] := rfl

@[simp] theorem Instr.encodeAll_cons (i : Instr) (is : List Instr) :
    encodeAll (i :: is) = i.encode ++ encodeAll is := rfl

@[simp] theorem Instr.encodeAll_append (is js : List Instr) :
    encodeAll (is ++ js) = encodeAll is ++ encodeAll js := List.flatMap_append

/-- How many bytes some instructions have. -/
def Instr.totalWidth (is : List Instr) : Nat := (encodeAll is).length

@[simp] theorem Instr.totalWidth_nil : totalWidth [] = 0 := rfl

@[simp] theorem Instr.totalWidth_cons (i : Instr) (is : List Instr) :
    totalWidth (i :: is) = i.width + totalWidth is := List.length_append

@[simp] theorem Instr.totalWidth_append (is js : List Instr) :
    totalWidth (is ++ js) = totalWidth is + totalWidth js := by
  simp [totalWidth]

namespace Code

variable {c : Code} {a : Nat}

/-- The instructions `is` lie in the code one behind the other from the address `a` on, and the
decoder tells each of them. -/
def Holds (c : Code) (a : Nat) (is : List Instr) : Prop :=
  c.Has a (Instr.encodeAll is) ∧ ∀ i ∈ is, i.Encodable

theorem holds_append {is js : List Instr} :
    c.Holds a (is ++ js) ↔ c.Holds a is ∧ c.Holds (a + Instr.totalWidth is) js := by
  simp only [Holds, Instr.encodeAll_append, has_append, List.forall_mem_append,
    Instr.totalWidth]
  tauto

theorem Holds.le_size {is : List Instr} (h : c.Holds a is) :
    a + Instr.totalWidth is ≤ c.size := h.1.le_size

theorem Holds.decodeAt {i : Instr} (h : c.Holds a [i]) :
    c.decodeAt a = .ok (i, a + i.width) :=
  decodeAt_encode (by simpa using h.1) (h.2 i (by simp))

theorem Holds.lt_size {i : Instr} (h : c.Holds a [i]) : a < c.size := by
  have := h.le_size
  have := i.width_pos
  simp only [Instr.totalWidth_cons, Instr.totalWidth_nil] at *
  omega

end Code

end Abecedary
