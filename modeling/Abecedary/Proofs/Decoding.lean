import Mathlib.Algebra.Order.Ring.Nat
import Abecedary.Code.Emitter
import Abecedary.Proofs.Encoding

/-!
# Decoding inverts encoding

The decoder finds an instruction only where its bytes lie, so it finds it exactly there
(`Code.decodeAt_eq_ok_iff`). A listing decodes one instruction behind the other (`Code.Walk`) until
the code ends or does not decode. Hence a code can be listed if and only if it is made of encoded
instructions, in one way, and the listing says in which (`decoding_inverts_encoding`).
-/

namespace Abecedary

/-! ## Writing an instruction -/

namespace Emitter

/-- Writes an instruction. -/
def emitInstr (out : Emitter) : Instr → Emitter
  | .fetch v => out.emitVariable .fetch v
  | .store v => out.emitVariable .store v
  | .push (.number x) => out.emitNumber x
  | .push (.text s) => out.emitText s
  | .pop => out.emit .pop
  | .apply op => out.emit op.opcode
  | .jumpIfZero target => out.emitJump .jumpIfZero target
  | .jumpIfNonZero target => out.emitJump .jumpIfNonZero target
  | .jump target => out.emitJump .jump target
  | .halt => out.emit .halt

/-- An instruction is written as its encoding. -/
theorem toList_emitInstr (out : Emitter) (i : Instr) :
    (out.emitInstr i).bytes.toList = out.bytes.toList ++ i.encode := by
  rcases i with v | v | (x | s) | _ | op | t | t | t | _ <;>
    simp [emitInstr, emitVariable, emitNumber, emitText, emitJump, emit, write, Instr.encode,
      Instr.opcode, Instr.operand, Address.bytes]

end Emitter

namespace Code

variable {c : Code} {a start : Nat}

/-! ## What has been read lies there -/

/-- Bytes lie at an address when the code reaches as far and they are what it has there. -/
theorem has_iff {bs : List UInt8} :
    c.Has a bs ↔ a + bs.length ≤ c.size ∧ (c.bytes.extract a (a + bs.length)).toList = bs := by
  have hslice : (c.bytes.extract a (a + bs.length)).toList =
      (c.bytes.toList.drop a).take bs.length := by
    simp
  rw [hslice]
  constructor
  · intro h
    exact ⟨h.le_size, (List.prefix_iff_eq_take.1 h.2).symm⟩
  · rintro ⟨hle, h⟩
    exact ⟨by omega, List.prefix_iff_eq_take.2 h.symm⟩

theorem has_of_read {n : Nat} {bs : List UInt8} (h : c.read start a n = .ok bs) :
    c.Has a bs ∧ bs.length = n := by
  rw [read, window?] at h
  split at h
  · next hw =>
    split at hw
    · next hle =>
      have hbs := (Option.some.inj hw).trans (Except.ok.inj h)
      have hlen : bs.length = n := by
        rw [← hbs]
        simp only [size] at hle
        simp only [Array.length_toList, Array.size_extract]
        omega
      refine ⟨has_iff.2 ⟨by omega, ?_⟩, hlen⟩
      rw [hlen, hbs]
    · cases hw
  · cases h

theorem has_of_readByte {b : UInt8} (h : c.readByte start a = .ok b) : c.Has a [b] := by
  rw [readByte] at h
  split at h
  · next hb =>
    obtain ⟨hlt, hb⟩ := Array.getElem?_eq_some_iff.1 hb
    refine ⟨hlt.le, c.bytes.toList.drop (a + 1), ?_⟩
    rw [List.singleton_append, ← Except.ok.inj h, ← hb, ← Array.getElem_toList,
      List.getElem_cons_drop]
  · cases h

/-- The word that four bytes make up has these bytes. -/
theorem has_of_readWord {n : Nat} (h : c.readWord start a = .ok n) :
    c.Has a (littleEndian 4 n) ∧ n < 2 ^ 32 := by
  obtain ⟨bs, hbs, hn⟩ := bind_eq_ok.1 h
  obtain ⟨hhas, hlen⟩ := has_of_read hbs
  have hn : ofLittleEndian bs = n := pure_eq_ok.1 hn
  have hback : littleEndian 4 n = bs := by
    rw [← hn, ← hlen, littleEndian_ofLittleEndian]
  have hmod : n = n % 2 ^ 32 := by
    conv => lhs; rw [← hn, ← hback, ofLittleEndian_littleEndian]
    rfl
  exact ⟨hback ▸ hhas, by omega⟩

theorem has_of_readVariable {v : Variable} (h : c.readVariable a = .ok v) :
    c.Has (a + 1) [UInt8.ofNat v.index] := by
  obtain ⟨b, hb, h⟩ := bind_eq_ok.1 h
  have hv : UInt8.ofNat v.index = b := by
    split at h
    · next w hw =>
      rw [← pure_eq_ok.1 h]
      rw [Variable.ofIndex?] at hw
      split at hw
      · rw [← Option.some.inj hw]
        simp
      · cases hw
    · exact absurd h throw_ne_ok
  rw [hv]
  exact has_of_readByte hb

/-- A literal has been read from its operand, and could not have been taken for the other kind. -/
theorem has_of_readLiteral {x : Value} {next : Nat} (h : c.readLiteral a = .ok (x, next)) :
    c.Has (a + 1) (Instr.push x).operand ∧ (Instr.push x).Encodable ∧
      next = a + (Instr.push x).width := by
  obtain ⟨front, hfront, h⟩ := bind_eq_ok.1 h
  obtain ⟨hfront, hfrontLen⟩ := has_of_read hfront
  split at h
  · next htag =>
    obtain ⟨n, hn, h⟩ := bind_eq_ok.1 h
    obtain ⟨bs, hbs, h⟩ := bind_eq_ok.1 h
    obtain ⟨hn, hlt⟩ := has_of_readWord hn
    obtain ⟨hhas, hlen⟩ := has_of_read hbs
    split at h
    · next s hs =>
      have hx := pure_eq_ok.1 h
      simp only [Prod.mk.injEq] at hx
      obtain ⟨rfl, rfl⟩ := hx
      have hs := Text.ofBytes?_eq_some_iff.1 hs
      subst hs hlen htag
      refine ⟨has_append.2 ⟨has_append.2 ⟨hfront, hn⟩, ?_⟩, hlt, ?_⟩
      · simpa [textTag, Nat.add_assoc] using hhas
      · simp [Instr.width, Instr.encode, Instr.operand, textTag]
        omega
    · exact absurd h throw_ne_ok
  · next htag =>
    obtain ⟨back, hback, h⟩ := bind_eq_ok.1 h
    obtain ⟨hback, hbackLen⟩ := has_of_read hback
    have hx := pure_eq_ok.1 h
    simp only [Prod.mk.injEq] at hx
    obtain ⟨rfl, rfl⟩ := hx
    have hbits : bigEndian 8 (UInt64.ofNat (ofBigEndian (front ++ back))).toNat =
        front ++ back := by
      have hlen : (front ++ back).length = 8 := by rw [List.length_append, hfrontLen, hbackLen]
      have hbytes := bigEndian_ofBigEndian (front ++ back)
      rw [hlen] at hbytes
      have hmod := ofBigEndian_bigEndian 8 (ofBigEndian (front ++ back))
      rw [hbytes] at hmod
      rw [UInt64.toNat_ofNat', show 2 ^ 64 = 1 <<< (8 * 8) from rfl, ← hmod, hbytes]
    have hboth : c.Has (a + 1) (front ++ back) := by
      refine has_append.2 ⟨hfront, ?_⟩
      rw [hfrontLen]
      exact hback
    refine ⟨by rw [Instr.operand, hbits]; exact hboth, ?_, ?_⟩
    · rw [Instr.Encodable, hbits, List.take_left' hfrontLen]
      exact htag
    · simp [Instr.width, Instr.encode, Instr.operand]

/-- The bytes of a word give its address back. -/
theorem has_of_readWord_address {n : Nat} (h : c.readWord start a = .ok n) :
    c.Has a (littleEndian 4 (UInt32.ofNat n).toNat) := by
  obtain ⟨hhas, hlt⟩ := has_of_readWord h
  rwa [UInt32.toNat_ofNat_of_lt' hlt]

/-- **The decoder finds only what lies there.** -/
theorem has_of_decodeAt {i : Instr} {n : Nat} (h : c.decodeAt a = .ok (i, n)) :
    c.Has a i.encode ∧ i.Encodable ∧ n = a + i.width := by
  obtain ⟨byte, hbyte, h⟩ := bind_eq_ok.1 h
  have hop := has_of_readByte hbyte
  cases hbyte : Opcode.ofByte? byte with
  | none =>
    rw [hbyte] at h
    exact absurd h throw_ne_ok
  | some op =>
    rw [hbyte] at h
    rw [← Opcode.byte_of_ofByte? hbyte] at hop
    cases op with
    | fetch | store =>
      obtain ⟨v, hv, h⟩ := bind_eq_ok.1 h
      cases pure_eq_ok.1 h
      exact ⟨has_cons.2 ⟨hop, has_of_readVariable hv⟩, trivial, rfl⟩
    | push =>
      obtain ⟨⟨x, next⟩, hx, h⟩ := bind_eq_ok.1 h
      cases pure_eq_ok.1 h
      obtain ⟨hoperand, hx, hnext⟩ := has_of_readLiteral hx
      exact ⟨has_cons.2 ⟨hop, hoperand⟩, hx, hnext⟩
    | jumpIfZero | jumpIfNonZero | jump =>
      obtain ⟨target, ht, h⟩ := bind_eq_ok.1 h
      cases pure_eq_ok.1 h
      exact ⟨has_cons.2 ⟨hop, has_of_readWord_address ht⟩, trivial, rfl⟩
    | pop | add | sub | less | concat | halt =>
      cases pure_eq_ok.1 h
      exact ⟨hop, trivial, rfl⟩

/-- **The decoder finds an instruction exactly where its bytes lie.** -/
theorem decodeAt_eq_ok_iff {i : Instr} {n : Nat} :
    c.decodeAt a = .ok (i, n) ↔ c.Holds a [i] ∧ n = a + i.width := by
  constructor
  · intro h
    obtain ⟨hhas, hi, hn⟩ := has_of_decodeAt h
    exact ⟨⟨by simpa using hhas, by simpa using hi⟩, hn⟩
  · rintro ⟨h, rfl⟩
    exact h.decodeAt

/-- The same, with the bytes between the two addresses. -/
theorem decodeAt_eq_ok_iff_extract {i : Instr} {n : Nat} :
    c.decodeAt a = .ok (i, n) ↔
      i.Encodable ∧ a ≤ n ∧ n ≤ c.size ∧ (c.bytes.extract a n).toList = i.encode := by
  constructor
  · intro h
    obtain ⟨hhas, hi, rfl⟩ := has_of_decodeAt h
    obtain ⟨hle, hbytes⟩ := has_iff.1 hhas
    exact ⟨hi, by omega, hle, hbytes⟩
  · rintro ⟨hi, han, hn, hbytes⟩
    have hwidth : n = a + i.encode.length := by
      have := congrArg List.length hbytes
      simp only [size] at hn
      simp only [Array.length_toList, Array.size_extract] at this
      omega
    subst hwidth
    exact decodeAt_encode (has_iff.2 ⟨hn, hbytes⟩) hi

end Code

/-! ## Listings -/

/-- Instructions with their addresses, the first one at `a`. -/
def Instr.placed : (a : Nat) → List Instr → List (Nat × Instr)
  | _, [] => []
  | a, i :: is => (a, i) :: placed (a + i.width) is

@[simp] theorem Instr.placed_nil (a : Nat) : placed a [] = [] := rfl

@[simp] theorem Instr.placed_cons (a : Nat) (i : Instr) (is : List Instr) :
    placed a (i :: is) = (a, i) :: placed (a + i.width) is := rfl

@[simp] theorem Instr.placed_append (a : Nat) (is js : List Instr) :
    placed a (is ++ js) = placed a is ++ placed (a + totalWidth is) js := by
  induction is generalizing a with
  | nil => rfl
  | cons i is ih => simp [ih, Nat.add_assoc]

@[simp] theorem Instr.map_snd_placed (a : Nat) (is : List Instr) :
    (placed a is).map Prod.snd = is := by
  induction is generalizing a with
  | nil => rfl
  | cons i is ih => rw [placed_cons, List.map_cons, ih]

/-- An instruction stands at the sum of the widths of those before it. -/
theorem Instr.mem_placed {a b : Nat} {i : Instr} {is : List Instr} :
    (b, i) ∈ placed a is ↔
      ∃ front back, is = front ++ i :: back ∧ b = a + totalWidth front := by
  induction is generalizing a with
  | nil => simp
  | cons j is ih =>
    rw [placed_cons, List.mem_cons, Prod.mk.injEq, ih]
    constructor
    · rintro (⟨rfl, rfl⟩ | ⟨front, back, rfl, rfl⟩)
      · exact ⟨[], is, rfl, rfl⟩
      · exact ⟨j :: front, back, rfl, by simp [Nat.add_assoc]⟩
    · rintro ⟨_ | ⟨j', front⟩, back, h, rfl⟩
      · cases h
        exact .inl ⟨rfl, rfl⟩
      · cases h
        exact .inr ⟨front, back, rfl, by simp [Nat.add_assoc]⟩

namespace Code

variable {c : Code} {a b : Nat} {es : List (Nat × Instr)}

/-- Decoding one instruction behind the other from the address `a` on gives the entries `es` and
leads to the address `b`. -/
inductive Walk (c : Code) : Nat → List (Nat × Instr) → Nat → Prop
  | nil (a : Nat) : Walk c a [] a
  | cons {a n b : Nat} {i : Instr} {es : List (Nat × Instr)} (h : c.decodeAt a = .ok (i, n))
    (rest : Walk c n es b) : Walk c a ((a, i) :: es) b

/-- What a walk meets are instructions that lie one behind the other. -/
theorem Walk.holds (h : c.Walk a es b) (ha : a ≤ c.size) :
    ∃ is, es = Instr.placed a is ∧ c.Holds a is ∧ b = a + Instr.totalWidth is := by
  induction h with
  | nil a => exact ⟨[], rfl, ⟨⟨ha, List.nil_prefix⟩, by simp⟩, rfl⟩
  | cons h _ ih =>
    obtain ⟨hi, rfl⟩ := decodeAt_eq_ok_iff.1 h
    obtain ⟨is, rfl, his, rfl⟩ := ih (by simpa using hi.le_size)
    refine ⟨_ :: is, rfl, ?_, by simp [Nat.add_assoc]⟩
    rw [← List.singleton_append, holds_append]
    exact ⟨hi, by simpa using his⟩

/-- Instructions that lie one behind the other are met by a walk. -/
theorem Holds.walk {is : List Instr} (h : c.Holds a is) :
    c.Walk a (Instr.placed a is) (a + Instr.totalWidth is) := by
  induction is generalizing a with
  | nil => exact .nil a
  | cons i is ih =>
    rw [← List.singleton_append, holds_append] at h
    obtain ⟨hi, his⟩ := h
    have his := ih (by simpa using his)
    rw [Instr.totalWidth_cons, ← Nat.add_assoc]
    exact .cons hi.decodeAt his

/-- Every walk can be continued until the code ends or does not decode. -/
theorem exists_walk (c : Code) (a : Nat) :
    ∃ es b, c.Walk a es b ∧ (c.size ≤ b ∨ b < c.size ∧ ∃ e, c.decodeAt b = .error e) := by
  induction hn : c.size - a using Nat.strongRecOn generalizing a with
  | ind n ih =>
    subst hn
    rcases Nat.lt_or_ge a c.size with ha | ha
    · cases hd : c.decodeAt a with
      | error e => exact ⟨[], a, .nil a, .inr ⟨ha, e, hd⟩⟩
      | ok entry =>
        obtain ⟨i, n⟩ := entry
        have hlt := lt_next_of_decodeAt hd
        obtain ⟨es, b, hwalk, hb⟩ := ih _ (by omega) n rfl
        exact ⟨(a, i) :: es, b, .cons hd hwalk, hb⟩
    · exact ⟨[], a, .nil a, .inl ha⟩

theorem lt_size_of_decodeAt {i : Instr} {n : Nat} (h : c.decodeAt a = .ok (i, n)) :
    a < c.size := (decodeAt_eq_ok_iff.1 h).1.lt_size

/-- A listing goes on where a walk leads. -/
theorem Walk.addInstructions_eq (h : c.Walk a es b) (before : Array (Nat × Instr)) :
    c.addInstructions a before = c.addInstructions b (before ++ es.toArray) := by
  induction h generalizing before with
  | nil a => simp
  | cons h _ ih =>
    rw [addInstructions, if_pos (lt_size_of_decodeAt h)]
    split
    · next h' => rw [h] at h'; cases h'
    · next h' =>
      rw [h] at h'
      cases h'
      rw [ih]
      congr 1
      simp

/-- The listing of a code whose walk leads to its end. -/
theorem Walk.instructions_eq_ok (h : c.Walk 0 es b) (hb : c.size ≤ b) :
    c.instructions = .ok es := by
  rw [instructions, h.addInstructions_eq, addInstructions, if_neg (Nat.not_lt.2 hb)]
  simp [bind, Except.bind, pure, Except.pure]

/-- The listing of a code whose walk leads to an address that does not decode. -/
theorem Walk.instructions_eq_error {e : DecodeError} (h : c.Walk 0 es b) (hb : b < c.size)
    (he : c.decodeAt b = .error e) : c.instructions = .error e := by
  rw [instructions, h.addInstructions_eq, addInstructions, if_pos hb]
  split
  · next h' =>
    rw [he] at h'
    cases h'
    rfl
  · next h' => rw [he] at h'; cases h'

theorem instructions_eq_ok_iff : c.instructions = .ok es ↔ c.Walk 0 es c.size := by
  constructor
  · intro h
    obtain ⟨es', b, hwalk, hb | ⟨hb, e, he⟩⟩ := c.exists_walk 0
    · have hend : b = c.size := by
        obtain ⟨is, -, his, hb'⟩ := hwalk.holds (Nat.zero_le _)
        have := his.le_size
        omega
      rw [hwalk.instructions_eq_ok hb] at h
      rw [← Except.ok.inj h, ← hend]
      exact hwalk
    · rw [hwalk.instructions_eq_error hb he] at h
      cases h
  · intro h
    exact h.instructions_eq_ok le_rfl

theorem instructions_eq_error_iff {e : DecodeError} :
    c.instructions = .error e ↔ ∃ es b, c.Walk 0 es b ∧ b < c.size ∧ c.decodeAt b = .error e := by
  constructor
  · intro h
    obtain ⟨es, b, hwalk, hb | ⟨hb, e', he⟩⟩ := c.exists_walk 0
    · rw [hwalk.instructions_eq_ok hb] at h
      cases h
    · rw [hwalk.instructions_eq_error hb he] at h
      cases h
      exact ⟨es, b, hwalk, hb, he⟩
  · rintro ⟨es, b, hwalk, hb, he⟩
    exact hwalk.instructions_eq_error hb he

/-- Instructions make up a code when they lie in it from its beginning to its end. -/
theorem holds_zero_iff {is : List Instr} :
    c.Holds 0 is ∧ Instr.totalWidth is = c.size ↔
      (∀ i ∈ is, i.Encodable) ∧ c.bytes.toList = Instr.encodeAll is := by
  constructor
  · rintro ⟨⟨⟨-, hbytes⟩, his⟩, hsize⟩
    exact ⟨his, (hbytes.eq_of_length (by simpa [Instr.totalWidth, size] using hsize)).symm⟩
  · rintro ⟨his, hbytes⟩
    refine ⟨⟨⟨Nat.zero_le _, by simp [hbytes]⟩, his⟩, ?_⟩
    rw [Instr.totalWidth, ← hbytes, Array.length_toList, size]

/-- The entries of a listing stand at the sums of the widths before them. -/
theorem exists_placed_of_instructions (h : c.instructions = .ok es) :
    ∃ is, es = Instr.placed 0 is := by
  obtain ⟨is, rfl, -, -⟩ := (instructions_eq_ok_iff.1 h).holds (Nat.zero_le _)
  exact ⟨is, rfl⟩

/-- A code is listed as some instructions when it is their encoding. -/
theorem instructions_eq_placed_iff {is : List Instr} :
    c.instructions = .ok (Instr.placed 0 is) ↔
      (∀ i ∈ is, i.Encodable) ∧ c.bytes.toList = Instr.encodeAll is := by
  rw [instructions_eq_ok_iff, ← holds_zero_iff]
  constructor
  · intro h
    obtain ⟨js, hjs, hholds, hsize⟩ := h.holds (Nat.zero_le _)
    have : is = js := by
      simpa using congrArg (List.map Prod.snd) hjs
    subst this
    exact ⟨hholds, by omega⟩
  · rintro ⟨hholds, hsize⟩
    have := hholds.walk
    rwa [Nat.zero_add, hsize] at this

/-- A code can be listed when it is made of encoded instructions, and in one way only. -/
theorem exists_instructions_iff :
    (∃ es, c.instructions = .ok es) ↔
      ∃! is, (∀ i ∈ is, i.Encodable) ∧ c.bytes.toList = Instr.encodeAll is := by
  constructor
  · rintro ⟨es, h⟩
    obtain ⟨is, rfl⟩ := exists_placed_of_instructions h
    refine ⟨is, instructions_eq_placed_iff.1 h, fun js hjs => ?_⟩
    -- both are what the listing says
    have hlisting := h.symm.trans (instructions_eq_placed_iff.2 hjs)
    simpa [eq_comm] using congrArg (List.map Prod.snd) (Except.ok.inj hlisting)
  · rintro ⟨is, his, -⟩
    exact ⟨_, instructions_eq_placed_iff.2 his⟩

end Code

/-- **Decoding inverts encoding.** The bytes between two addresses decode as an instruction exactly
when they are what is written for it. A code is listed as some instructions, each at the sum of the
widths before it, exactly when it is their encoding; it can be listed exactly when it is an encoding
in one way; and if it cannot, the error is that of the first address, one instruction behind the
other, that does not decode. -/
theorem decoding_inverts_encoding (c : Code) :
    (∀ (out : Emitter) i, (out.emitInstr i).bytes.toList = out.bytes.toList ++ i.encode) ∧
    (∀ a i n, c.decodeAt a = .ok (i, n) ↔
      i.Encodable ∧ a ≤ n ∧ n ≤ c.size ∧ (c.bytes.extract a n).toList = i.encode) ∧
    (∀ is, c.instructions = .ok (Instr.placed 0 is) ↔
      (∀ i ∈ is, i.Encodable) ∧ c.bytes.toList = Instr.encodeAll is) ∧
    ((∃ es, c.instructions = .ok es) ↔
      ∃! is, (∀ i ∈ is, i.Encodable) ∧ c.bytes.toList = Instr.encodeAll is) ∧
    ∀ e, c.instructions = .error e ↔
      ∃ es b, c.Walk 0 es b ∧ b < c.size ∧ c.decodeAt b = .error e :=
  ⟨Emitter.toList_emitInstr, fun _ _ _ => Code.decodeAt_eq_ok_iff_extract,
    fun _ => Code.instructions_eq_placed_iff, Code.exists_instructions_iff,
    fun _ => Code.instructions_eq_error_iff⟩

end Abecedary
