import Abecedary.Proofs.Decoding

/-!
# Defective instructions

The bytes of an instruction tell, one after the other, how many of them there have to be: the opcode
whether an operand follows, the first four bytes of a literal whether a length follows, and the
length how long the text is (`Code.demand`). The decoder fails in four ways, and each is a property
of the bytes from the instruction on (`Code.Spoils`): there are fewer than they demand, or they are
complete as far as they have to be read and no instruction. It fails so exactly then
(`Code.decodeAt_eq_error_iff`). What it says of complete bytes is not changed by others behind them
(`decode_errors_are_exact`).
-/

namespace Abecedary

theorem Opcode.byte_le (op : Opcode) : op.byte ≤ 11 := by
  cases op <;> decide

theorem Opcode.ofByte?_eq_none_iff {b : UInt8} : ofByte? b = none ↔ 11 < b := by
  constructor
  · intro h
    by_contra hb
    have hlt : b.toNat < 12 := Nat.lt_succ_of_le (UInt8.le_iff_toNat_le.1 (UInt8.not_lt.1 hb))
    have hsome : ∀ n : Fin 12, ofByte? (.ofNat n) ≠ none := by decide
    exact hsome ⟨b.toNat, hlt⟩ (by simpa using h)
  · intro h
    cases hop : ofByte? b with
    | none => rfl
    | some op =>
      rw [← byte_of_ofByte? hop] at h
      exact absurd h (UInt8.not_lt.2 op.byte_le)

theorem Variable.ofIndex?_eq_none_iff {i : UInt8} : ofIndex? i = none ↔ 25 < i := by
  rw [UInt8.lt_iff_toNat_lt, show (25 : UInt8).toNat = 25 from rfl]
  simp only [ofIndex?]
  split <;> simp <;> omega

theorem Text.ofBytes?_eq_none_iff {bs : List UInt8} :
    ofBytes? bs = none ↔ ¬ (ByteArray.mk bs.toArray).IsValidUTF8 := by
  simp [ofBytes?, String.fromUTF8?]

namespace Code

/-! ## What bytes demand -/

/-- How many bytes the literal at the head of some bytes has, as far as they tell: a number or the
tag of a text begins with four, eight are a number or a tag and a length, and the length says how
many follow. -/
def literalDemand (operand : List UInt8) : Nat :=
  if operand.length < 4 then 4
  else if operand.take 4 = textTag ∧ 8 ≤ operand.length then
    8 + ofLittleEndian ((operand.drop 4).take 4)
  else 8

/-- How many bytes the instruction at the head of some bytes has, as far as they tell. -/
def demand : List UInt8 → Nat
  | [] => 1
  | b :: operand =>
    match Opcode.ofByte? b with
    | some .fetch | some .store => 2
    | some .push => 1 + literalDemand operand
    | some .jumpIfZero | some .jumpIfNonZero | some .jump => 5
    | _ => 1

/-- What is wrong with the instruction at the head of the bytes `bs`. -/
inductive Spoils (bs : List UInt8) : DecodeDefect → Prop
  /-- The bytes are fewer than they demand. -/
  | truncated (h : bs.length < demand bs) : Spoils bs .truncated
  /-- The first byte is above all opcodes. -/
  | unknownOpcode {b : UInt8} (hbs : [b] <+: bs) (h : 11 < b) : Spoils bs (.unknownOpcode b)
  /-- The index of the variable is there and above all indices. -/
  | invalidVariable {op : Opcode} {index : UInt8} (hop : op = .fetch ∨ op = .store)
    (hbs : [op.byte, index] <+: bs) (h : 25 < index) : Spoils bs (.invalidVariable index)
  /-- As many bytes are there as the length of the text says, and they encode none. -/
  | invalidText {ds : List UInt8} (hlength : ds.length < 2 ^ 32)
    (hbs : Opcode.push.byte :: (textTag ++ littleEndian 4 ds.length ++ ds) <+: bs)
    (h : ¬ (ByteArray.mk ds.toArray).IsValidUTF8) : Spoils bs .invalidText

theorem ofLittleEndian_lt (bs : List UInt8) : ofLittleEndian bs < 256 ^ bs.length := by
  induction bs with
  | nil => decide
  | cons b bs ih =>
    have hb := b.toNat_lt
    rw [ofLittleEndian, List.length_cons, Nat.pow_succ]
    omega

/-- No instruction has more bytes than a text of the greatest length. -/
theorem demand_le (bs : List UInt8) : demand bs ≤ 9 + 2 ^ 32 := by
  have hliteral (operand : List UInt8) : literalDemand operand ≤ 8 + 2 ^ 32 := by
    rw [literalDemand]
    split
    · omega
    split
    · next h =>
      have hlt := ofLittleEndian_lt ((operand.drop 4).take 4)
      have hlen : ((operand.drop 4).take 4).length = 4 := by
        rw [List.length_take, List.length_drop]
        omega
      rw [hlen] at hlt
      omega
    · omega
  cases bs with
  | nil => simp [demand]
  | cons b operand =>
    have := hliteral operand
    rw [demand]
    split <;> omega

theorem demand_push (operand : List UInt8) :
    demand (Opcode.push.byte :: operand) = 1 + literalDemand operand := by
  rw [demand, Opcode.ofByte?_byte]

theorem length_textTag : textTag.length = 4 := rfl

theorem literalDemand_tagged {n : Nat} (hn : n < 2 ^ 32) (rest : List UInt8) :
    literalDemand (textTag ++ littleEndian 4 n ++ rest) = 8 + n := by
  have hword : ofLittleEndian (littleEndian 4 n) = n := by
    rw [ofLittleEndian_littleEndian, Nat.one_shiftLeft, Nat.mod_eq_of_lt hn]
  have hlen : 8 ≤ (textTag ++ (littleEndian 4 n ++ rest)).length := by
    simp only [List.length_append, length_textTag, length_littleEndian]
    omega
  rw [List.append_assoc, literalDemand, if_neg (by omega), List.take_left' length_textTag,
    List.drop_left' length_textTag, List.take_left' (length_littleEndian 4 n), hword,
    if_pos ⟨rfl, hlen⟩]

/-- A number is a literal of eight bytes, since it does not begin with the tag of a text. -/
theorem literalDemand_number {x : Number} (hx : (Instr.push (.number x)).Encodable)
    (rest : List UInt8) : literalDemand (bigEndian 8 x.bits.toNat ++ rest) = 8 := by
  have hlen := length_bigEndian 8 x.bits.toNat
  have htake : (bigEndian 8 x.bits.toNat ++ rest).take 4 ≠ textTag := by
    rw [List.take_append_of_le_length (by omega)]
    exact hx
  rw [literalDemand, if_neg (by rw [List.length_append]; omega), if_neg (fun h => htake h.1)]

/-- **An instruction has as many bytes as its own bytes demand.** -/
theorem demand_of_encode {i : Instr} {bs : List UInt8} (h : i.encode <+: bs) (hi : i.Encodable) :
    demand bs = i.width := by
  obtain ⟨rest, rfl⟩ := h
  rw [Instr.encode, List.cons_append, demand, Opcode.ofByte?_byte]
  cases i with
  | push x =>
    cases x with
    | number x =>
      simp only [Instr.opcode, Instr.operand]
      rw [literalDemand_number hi]
      simp [Instr.width, Instr.encode, Instr.operand]
    | text s =>
      simp only [Instr.opcode, Instr.operand]
      rw [List.append_assoc, literalDemand_tagged hi]
      simp [Instr.width, Instr.encode, Instr.operand, length_textTag]
      omega
  | fetch | store | jumpIfZero | jumpIfNonZero | jump =>
    simp [Instr.opcode, Instr.width, Instr.encode, Instr.operand]
  | pop | halt => rfl
  | apply op => cases op <;> rfl

/-- Bytes with another defect are not fewer than they demand. -/
theorem Spoils.demand_le_length {bs : List UInt8} {d : DecodeDefect} (h : Spoils bs d)
    (hd : d ≠ .truncated) : demand bs ≤ bs.length := by
  cases h with
  | truncated _ => exact absurd rfl hd
  | unknownOpcode hbs hb =>
    obtain ⟨rest, rfl⟩ := hbs
    simp [demand, Opcode.ofByte?_eq_none_iff.2 hb]
  | invalidVariable hop hbs _ =>
    obtain ⟨rest, rfl⟩ := hbs
    rcases hop with rfl | rfl <;> simp [demand]
  | @invalidText ds hlength hbs _ =>
    obtain ⟨rest, rfl⟩ := hbs
    rw [List.cons_append, demand_push, List.append_assoc, literalDemand_tagged hlength]
    simp [length_textTag]
    omega

/-- Bytes behind those with a defect do not mend it, unless these were too few. -/
theorem Spoils.mono {bs ds : List UInt8} {d : DecodeDefect} (h : Spoils bs d)
    (hd : d ≠ .truncated) (hds : bs <+: ds) : Spoils ds d := by
  cases h with
  | truncated _ => exact absurd rfl hd
  | unknownOpcode hbs hb => exact .unknownOpcode (hbs.trans hds) hb
  | invalidVariable hop hbs hi => exact .invalidVariable hop (hbs.trans hds) hi
  | invalidText hlength hbs h => exact .invalidText hlength (hbs.trans hds) h

/-! ## The bytes from an address on -/

variable {c : Code} {a start : Nat}

/-- The bytes of a code from an address on, none behind its end. -/
def bytesFrom (c : Code) (a : Nat) : List UInt8 := c.bytes.toList.drop a

theorem length_bytesFrom (c : Code) (a : Nat) : (c.bytesFrom a).length = c.size - a := by
  rw [bytesFrom, List.length_drop, Array.length_toList, size]

theorem has_of_starts {b : UInt8} {bs : List UInt8} (h : b :: bs <+: c.bytesFrom a) :
    c.Has a (b :: bs) := by
  have hlen := h.length_le
  rw [length_bytesFrom, List.length_cons] at hlen
  exact ⟨by omega, h⟩

/-- Behind the bytes that lie at an address are those from the next address on. -/
theorem Has.bytesFrom_eq {bs : List UInt8} (h : c.Has a bs) :
    c.bytesFrom a = bs ++ c.bytesFrom (a + bs.length) := by
  obtain ⟨rest, hrest⟩ := h.2
  rw [bytesFrom, bytesFrom, ← List.drop_drop, ← hrest, List.drop_left]

/-! ## How reading fails -/

theorem bind_eq_error {ε α β : Type} {x : Except ε α} {f : α → Except ε β} {e : ε} :
    x >>= f = .error e ↔ x = .error e ∨ ∃ a, x = .ok a ∧ f a = .error e := by
  cases x <;> simp [bind, Except.bind]

theorem pure_ne_error {ε α : Type} {a : α} {e : ε} : (pure a : Except ε α) ≠ .error e := by
  simp [pure, Except.pure]

theorem throw_eq_error {ε α : Type} {e d : ε} : (throw e : Except ε α) = .error d ↔ e = d := by
  simp [throw, throwThe, MonadExceptOf.throw]

theorem read_eq_error {n : Nat} {e : DecodeError} (h : c.read start a n = .error e) :
    e = ⟨.truncated, start⟩ ∧ c.size < a + n := by
  rw [read, window?] at h
  split at h
  · cases h
  · next hw =>
    split at hw
    · cases hw
    · exact ⟨(Except.error.inj h).symm, by omega⟩

theorem readByte_eq_error {e : DecodeError} (h : c.readByte start a = .error e) :
    e = ⟨.truncated, start⟩ ∧ c.size ≤ a := by
  rw [readByte] at h
  split at h
  · cases h
  · next hb => exact ⟨(Except.error.inj h).symm, Array.getElem?_eq_none_iff.1 hb⟩

theorem readWord_eq_error {e : DecodeError} (h : c.readWord start a = .error e) :
    e = ⟨.truncated, start⟩ ∧ c.size < a + 4 := by
  rcases bind_eq_error.1 h with h | ⟨_, _, h⟩
  · exact read_eq_error h
  · exact absurd h pure_ne_error

/-! ## How decoding fails -/

/-- A literal whose length is not there yet is too short. -/
theorem lt_literalDemand {operand : List UInt8} (h : operand.length < 8) :
    operand.length < literalDemand operand := by
  rw [literalDemand]
  split
  · assumption
  · rw [if_neg (by omega)]
    exact h

/-- Where a literal cannot be read, its bytes say why. -/
theorem spoils_of_readLiteral {e : DecodeError} (hop : c.Has a [Opcode.push.byte])
    (h : c.readLiteral a = .error e) : e.address = a ∧ Spoils (c.bytesFrom a) e.defect := by
  have hfrom : c.bytesFrom a = Opcode.push.byte :: c.bytesFrom (a + 1) := hop.bytesFrom_eq
  have hlen := c.length_bytesFrom (a + 1)
  -- each read that fails leaves the operand shorter than it demands
  have hcut (hdemand : (c.bytesFrom (a + 1)).length < literalDemand (c.bytesFrom (a + 1))) :
      Spoils (c.bytesFrom a) .truncated := by
    refine .truncated ?_
    rw [hfrom, demand_push, List.length_cons]
    omega
  rcases bind_eq_error.1 h with h | ⟨front, hfront, h⟩
  · obtain ⟨rfl, hsize⟩ := read_eq_error h
    exact ⟨rfl, hcut (lt_literalDemand (by omega))⟩
  obtain ⟨hfront, -⟩ := has_of_read hfront
  split at h
  · next htag =>
    subst htag
    rcases bind_eq_error.1 h with h | ⟨n, hn, h⟩
    · obtain ⟨rfl, hsize⟩ := readWord_eq_error h
      exact ⟨rfl, hcut (lt_literalDemand (by omega))⟩
    obtain ⟨hn, hlt⟩ := has_of_readWord hn
    have hhead : c.Has (a + 1) (textTag ++ littleEndian 4 n) := has_append.2 ⟨hfront, hn⟩
    rcases bind_eq_error.1 h with h | ⟨ds, hread, h⟩
    · obtain ⟨rfl, hsize⟩ := read_eq_error h
      refine ⟨rfl, hcut ?_⟩
      rw [hlen, hhead.bytesFrom_eq, literalDemand_tagged hlt]
      omega
    · obtain ⟨hds, rfl⟩ := has_of_read hread
      split at h
      · exact absurd h pure_ne_error
      · next hnone =>
        obtain rfl := throw_eq_error.1 h
        have hall : c.Has (a + 1) (textTag ++ littleEndian 4 ds.length ++ ds) :=
          has_append.2 ⟨hhead, by simpa [length_textTag, Nat.add_assoc] using hds⟩
        exact ⟨rfl, .invalidText hlt (has_cons.2 ⟨hop, hall⟩).2
          (Text.ofBytes?_eq_none_iff.1 hnone)⟩
  · rcases bind_eq_error.1 h with h | ⟨_, _, h⟩
    · obtain ⟨rfl, hsize⟩ := read_eq_error h
      exact ⟨rfl, hcut (lt_literalDemand (by omega))⟩
    · exact absurd h pure_ne_error

/-- **Where the decoder fails, the bytes say why.** -/
theorem spoils_of_decodeAt {e : DecodeError} (h : c.decodeAt a = .error e) :
    e.address = a ∧ Spoils (c.bytesFrom a) e.defect := by
  rcases bind_eq_error.1 h with h | ⟨b, hb, h⟩
  · obtain ⟨rfl, hsize⟩ := readByte_eq_error h
    have hnil : c.bytesFrom a = [] :=
      List.eq_nil_of_length_eq_zero (by rw [length_bytesFrom]; omega)
    exact ⟨rfl, .truncated (by rw [hnil]; exact Nat.one_pos)⟩
  have hop := has_of_readByte hb
  cases hopcode : Opcode.ofByte? b with
  | none =>
    rw [hopcode] at h
    obtain rfl := throw_eq_error.1 h
    exact ⟨rfl, .unknownOpcode hop.2 (Opcode.ofByte?_eq_none_iff.1 hopcode)⟩
  | some op =>
    rw [hopcode] at h
    obtain rfl := Opcode.byte_of_ofByte? hopcode
    have hlen := c.length_bytesFrom a
    have hpos : a < c.size := hop.le_size
    have hdemand : demand (c.bytesFrom a) = demand (op.byte :: c.bytesFrom (a + 1)) :=
      congrArg demand hop.bytesFrom_eq
    rw [demand, hopcode] at hdemand
    cases op with
    | fetch | store =>
      -- the operand is one byte
      rcases bind_eq_error.1 h with h | ⟨_, _, h⟩
      · rcases bind_eq_error.1 h with h | ⟨index, hindex, h⟩
        · obtain ⟨rfl, hsize⟩ := readByte_eq_error h
          exact ⟨rfl, .truncated (by simp only [hdemand]; omega)⟩
        · split at h
          · exact absurd h pure_ne_error
          · next hnone =>
            obtain rfl := throw_eq_error.1 h
            refine ⟨rfl, .invalidVariable (by simp) (has_cons.2 ⟨hop, has_of_readByte hindex⟩).2
              (Variable.ofIndex?_eq_none_iff.1 hnone)⟩
      · exact absurd h pure_ne_error
    | push =>
      rcases bind_eq_error.1 h with h | ⟨_, _, h⟩
      · exact spoils_of_readLiteral hop h
      · exact absurd h pure_ne_error
    | jumpIfZero | jumpIfNonZero | jump =>
      rcases bind_eq_error.1 h with h | ⟨_, _, h⟩
      · obtain ⟨rfl, hsize⟩ := readWord_eq_error h
        exact ⟨rfl, .truncated (by simp only [hdemand]; omega)⟩
      · exact absurd h pure_ne_error
    | pop | add | sub | less | concat | halt => exact absurd h pure_ne_error

theorem decodeAt_of_unknown {b : UInt8} (h : c.Has a [b]) (hb : Opcode.ofByte? b = none) :
    c.decodeAt a = .error ⟨.unknownOpcode b, a⟩ := by
  rw [decodeAt, readByte_of_has h a]
  simp only [bind, Except.bind, hb]
  rfl

theorem decodeAt_of_invalidVariable {op : Opcode} {index : UInt8}
    (hop : op = .fetch ∨ op = .store) (h : c.Has a [op.byte, index])
    (hindex : Variable.ofIndex? index = none) :
    c.decodeAt a = .error ⟨.invalidVariable index, a⟩ := by
  obtain ⟨hhead, hoperand⟩ := has_cons.1 h
  have hvariable : c.readVariable a = .error ⟨.invalidVariable index, a⟩ := by
    rw [readVariable, readByte_of_has hoperand a]
    simp only [bind, Except.bind, hindex]
    rfl
  rw [decodeAt, readByte_of_has hhead a]
  simp only [bind, Except.bind, Opcode.ofByte?_byte]
  rcases hop with rfl | rfl <;> simp only [hvariable]

theorem decodeAt_of_invalidText {ds : List UInt8} (hlength : ds.length < 2 ^ 32)
    (h : c.Has a (Opcode.push.byte :: (textTag ++ littleEndian 4 ds.length ++ ds)))
    (hds : Text.ofBytes? ds = none) : c.decodeAt a = .error ⟨.invalidText, a⟩ := by
  obtain ⟨hop, hoperand⟩ := has_cons.1 h
  rw [decodeAt_push hop, readLiteral_of_has_tagged hoperand (Nat.mod_eq_of_lt hlength).symm, hds]
  rfl

/-- **The decoder fails exactly where the bytes are spoilt, and says how.** -/
theorem decodeAt_eq_error_iff {e : DecodeError} :
    c.decodeAt a = .error e ↔ e.address = a ∧ Spoils (c.bytesFrom a) e.defect := by
  refine ⟨spoils_of_decodeAt, ?_⟩
  rintro ⟨rfl, h⟩
  obtain ⟨d, a⟩ := e
  cases h with
  | truncated hlt =>
    -- an instruction and any other defect take as many bytes as are demanded
    cases hd : c.decodeAt a with
    | ok entry =>
      obtain ⟨hhas, hi, -⟩ := has_of_decodeAt hd
      have hle := hhas.2.length_le
      have hdemand := demand_of_encode hhas.2 hi
      simp only [Instr.width, bytesFrom] at *
      omega
    | error e =>
      obtain ⟨haddress, hspoils⟩ := spoils_of_decodeAt hd
      obtain ⟨d, b⟩ := e
      obtain rfl : b = a := haddress
      by_cases htruncated : d = .truncated
      · rw [htruncated]
      · have := hspoils.demand_le_length htruncated
        simp only at hlt
        omega
  | unknownOpcode hbs hb =>
    exact decodeAt_of_unknown (has_of_starts hbs) (Opcode.ofByte?_eq_none_iff.2 hb)
  | invalidVariable hop hbs hindex =>
    exact decodeAt_of_invalidVariable hop (has_of_starts hbs)
      (Variable.ofIndex?_eq_none_iff.2 hindex)
  | invalidText hlength hbs h =>
    exact decodeAt_of_invalidText hlength (has_of_starts hbs) (Text.ofBytes?_eq_none_iff.2 h)

/-! ## More bytes -/

/-- The code with some bytes behind it. -/
def extend (c : Code) (ds : Array UInt8) : Code := ⟨c.bytes ++ ds⟩

@[simp] theorem size_extend (c : Code) (ds : Array UInt8) :
    (c.extend ds).size = c.size + ds.size := Array.size_append

theorem bytesFrom_prefix_extend (c : Code) (ds : Array UInt8) (a : Nat) :
    c.bytesFrom a <+: (c.extend ds).bytesFrom a := by
  rw [bytesFrom, bytesFrom, extend, Array.toList_append, List.drop_append]
  exact List.prefix_append _ _

theorem Has.extend {bs : List UInt8} (h : c.Has a bs) (ds : Array UInt8) :
    (c.extend ds).Has a bs :=
  ⟨h.1.trans (by simp), h.2.trans (c.bytesFrom_prefix_extend ds a)⟩

/-- **What is decoded from enough bytes does not change when others follow them.** -/
theorem decodeAt_extend (ds : Array UInt8) (h : c.decodeAt a ≠ .error ⟨.truncated, a⟩) :
    (c.extend ds).decodeAt a = c.decodeAt a := by
  cases hd : c.decodeAt a with
  | ok entry =>
    obtain ⟨hhas, hi, hnext⟩ := has_of_decodeAt hd
    rw [decodeAt_encode (hhas.extend ds) hi, ← hnext]
  | error e =>
    obtain ⟨rfl, hspoils⟩ := decodeAt_eq_error_iff.1 hd
    have hne : e.defect ≠ .truncated := by
      rintro he
      exact h (hd.trans (congrArg Except.error (by rw [← he])))
    exact decodeAt_eq_error_iff.2 ⟨rfl, hspoils.mono hne (c.bytesFrom_prefix_extend ds _)⟩

/-- Bytes are too few only where the code ends. -/
theorem exists_extend_ne_truncated (c : Code) (a : Nat) :
    ∃ ds, (c.extend ds).decodeAt a ≠ .error ⟨.truncated, a⟩ := by
  refine ⟨Array.replicate (a + (9 + 2 ^ 32)) 0, fun h => ?_⟩
  obtain ⟨-, hspoils⟩ := decodeAt_eq_error_iff.1 h
  cases hspoils with
  | truncated hlt =>
    have hle := demand_le ((c.extend (.replicate (a + (9 + 2 ^ 32)) 0)).bytesFrom a)
    rw [length_bytesFrom, size_extend, Array.size_replicate] at hlt
    omega

theorem singleton_prefix_bytesFrom {b : UInt8} :
    [b] <+: c.bytesFrom a ↔ c.bytes[a]? = some b := by
  rw [← Array.getElem?_toList, ← List.head?_drop, List.head?_eq_some_iff, List.cons_prefix_iff,
    bytesFrom]
  simp only [List.nil_prefix, and_true]

end Code

/-- **Decode errors are exact, and stable under more bytes.** The error of an instruction has its
address. The bytes are truncated exactly when they are fewer than they demand; an opcode is unknown
exactly when it is above all opcodes, and a variable invalid exactly when its index is there and
above all indices; and a text is invalid exactly when it is there, as long as its length says, and
is not UTF-8. Any result but a truncation stays the same when bytes are added, some bytes put an end
to every truncation, and an instruction ends inside the code. -/
theorem decode_errors_are_exact (c : Code) (a : Nat) :
    (∀ e, c.decodeAt a = .error e → e.address = a) ∧
    (c.decodeAt a = .error ⟨.truncated, a⟩ ↔
      (c.bytesFrom a).length < Code.demand (c.bytesFrom a)) ∧
    (∀ b, c.decodeAt a = .error ⟨.unknownOpcode b, a⟩ ↔ c.bytes[a]? = some b ∧ 11 < b) ∧
    (∀ index, c.decodeAt a = .error ⟨.invalidVariable index, a⟩ ↔
      ∃ op : Opcode, (op = .fetch ∨ op = .store) ∧ [op.byte, index] <+: c.bytesFrom a ∧
        25 < index) ∧
    (c.decodeAt a = .error ⟨.invalidText, a⟩ ↔
      ∃ ds : List UInt8, ds.length < 2 ^ 32 ∧
        Opcode.push.byte :: (Code.textTag ++ Code.littleEndian 4 ds.length ++ ds) <+:
          c.bytesFrom a ∧
        ¬ (ByteArray.mk ds.toArray).IsValidUTF8) ∧
    (∀ ds, c.decodeAt a ≠ .error ⟨.truncated, a⟩ → (c.extend ds).decodeAt a = c.decodeAt a) ∧
    (∃ ds, (c.extend ds).decodeAt a ≠ .error ⟨.truncated, a⟩) ∧
    ∀ i next, c.decodeAt a = .ok (i, next) → a < next ∧ next ≤ c.size := by
  refine ⟨fun e h => (Code.decodeAt_eq_error_iff.1 h).1, ?_, fun b => ?_, fun index => ?_, ?_,
    fun ds => Code.decodeAt_extend ds, c.exists_extend_ne_truncated a, fun i next h => ?_⟩
  · simp only [Code.decodeAt_eq_error_iff, true_and]
    exact ⟨fun | .truncated h => h, .truncated⟩
  · simp only [Code.decodeAt_eq_error_iff, true_and, ← Code.singleton_prefix_bytesFrom]
    exact ⟨fun | .unknownOpcode hbs hb => ⟨hbs, hb⟩, fun ⟨hbs, hb⟩ => .unknownOpcode hbs hb⟩
  · simp only [Code.decodeAt_eq_error_iff, true_and]
    exact ⟨fun | .invalidVariable hop hbs h => ⟨_, hop, hbs, h⟩,
      fun ⟨_, hop, hbs, h⟩ => .invalidVariable hop hbs h⟩
  · simp only [Code.decodeAt_eq_error_iff, true_and]
    exact ⟨fun | .invalidText hlength hbs h => ⟨_, hlength, hbs, h⟩,
      fun ⟨_, hlength, hbs, h⟩ => .invalidText hlength hbs h⟩
  · have hle := (Code.decodeAt_eq_ok_iff_extract.1 h).2.2.1
    exact ⟨Code.lt_next_of_decodeAt h, hle⟩

/-- A text whose bytes are no UTF-8 as far as they go. It is cut short until its last byte is
there, and not UTF-8 from then on. -/
theorem cut_text_then_invalid :
    let cut : Code := ⟨#[2, 0x7F, 0xF0, 0, 0, 2, 0, 0, 0, 0xFF]⟩
    let whole := cut.extend #[0xFF]
    cut.decodeAt 0 = .error ⟨.truncated, 0⟩ ∧ whole.decodeAt 0 = .error ⟨.invalidText, 0⟩ ∧
      (whole.extend #[0x41]).decodeAt 0 = .error ⟨.invalidText, 0⟩ := by
  intro cut whole
  have hwhole : whole.decodeAt 0 = .error ⟨.invalidText, 0⟩ :=
    (decode_errors_are_exact whole 0).2.2.2.2.1.2 ⟨[0xFF, 0xFF], by decide, by decide, by decide⟩
  refine ⟨(decode_errors_are_exact cut 0).2.1.2 (by decide), hwhole, ?_⟩
  rw [← hwhole]
  exact (decode_errors_are_exact whole 0).2.2.2.2.2.1 #[0x41] (by rw [hwhole]; decide)

end Abecedary
