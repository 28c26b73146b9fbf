import Abecedary.Proofs.Defects
import Abecedary.Proofs.Fragments
import Abecedary.Proofs.RoundTrip
import Abecedary.Proofs.StackDiscipline

/-!
# Where words wrap around

Code has no largest size, but the length of a text and the target of a jump are words of four bytes
in it. The compiler writes what fits and drops the rest: a jump goes to its label modulo `2 ^ 32`
(`Stmt.filterMap_target?_code`), and of a text as many bytes are read back as its length modulo
`2 ^ 32` says (`Code.decodeAt_text`). Where texts and labels fit, no run of the code goes wrong,
however long the code is; where a text does not, its own bytes are executed
(`words_wrap_around`, `text_of_four_gibibytes_is_executed`).
-/

namespace Abecedary

open Instr

/-! ## Labels -/

namespace Stmt

/-- The addresses that the jumps of a statement are meant for, where its code begins at `a`. -/
def labels : Stmt → (a : Nat) → List Nat
  | ifThen c t, a => (a + c.width + 5 + t.width) :: t.labels (a + c.width + 5)
  | ifElse c t e, a =>
    (a + c.width + 5 + t.width + 5) :: t.labels (a + c.width + 5) ++
      (a + c.width + 5 + t.width + 5 + e.width) :: e.labels (a + c.width + 5 + t.width + 5)
  | whileDo c b, a => (a + c.width + 5 + b.width + 5) :: b.labels (a + c.width + 5) ++ [a]
  | doWhile b _, a => b.labels a ++ [a]
  | empty, _ => []
  | seq first second, a => first.labels a ++ second.labels (a + first.width)
  | expr _, _ => []

/-- **A jump goes to its label, as far as a word of four bytes holds it.** -/
theorem filterMap_target?_code (s : Stmt) (a : Nat) :
    (s.code a).filterMap Instr.target? = (s.labels a).map UInt32.ofNat := by
  have hexpr (e : Expr) : e.code.filterMap Instr.target? = [] :=
    List.filterMap_eq_nil_iff.2 e.target?_of_mem_code
  induction s generalizing a with
  | ifThen c t iht => simp [code, labels, target?, hexpr, iht, -UInt32.ofNat_add]
  | ifElse c t e iht ihe => simp [code, labels, target?, hexpr, iht, ihe, -UInt32.ofNat_add]
  | whileDo c b ihb => simp [code, labels, target?, hexpr, ihb, -UInt32.ofNat_add]
  | doWhile b c ihb => simp [code, labels, target?, hexpr, ihb]
  | empty => rfl
  | seq first second ihf ihs => simp [code, labels, ihf, ihs]
  | expr e => simp [code, labels, target?, hexpr]

/-- A label is where the code of a part begins or ends. -/
theorem exists_part_of_mem_labels {s : Stmt} {a l : Nat} (h : l ∈ s.labels a) :
    ∃ u b, s.Part a u b ∧ (l = b ∨ l = b + u.width) := by
  have hself {s : Stmt} {a l : Nat} (hl : l = a ∨ l = a + s.width) :
      ∃ u b, s.Part a u b ∧ (l = b ∨ l = b + u.width) := ⟨s, a, .self s a, hl⟩
  induction s generalizing a with
  | ifThen c t iht =>
    rcases List.mem_cons.1 h with rfl | h
    · exact hself (.inr (by simp only [width]; omega))
    · obtain ⟨u, b, hu, hl⟩ := iht h
      exact ⟨u, b, .ifThen hu, hl⟩
  | ifElse c t e iht ihe =>
    simp only [labels, List.cons_append, List.mem_cons, List.mem_append] at h
    rcases h with rfl | h | rfl | h
    · exact ⟨e, _, .elseBranch (.self e _), .inl rfl⟩
    · obtain ⟨u, b, hu, hl⟩ := iht h
      exact ⟨u, b, .thenBranch hu, hl⟩
    · exact hself (.inr (by simp only [width]; omega))
    · obtain ⟨u, b, hu, hl⟩ := ihe h
      exact ⟨u, b, .elseBranch hu, hl⟩
  | whileDo c b ihb =>
    simp only [labels, List.cons_append, List.mem_cons, List.mem_append, List.not_mem_nil,
      or_false] at h
    rcases h with rfl | h | rfl
    · exact hself (.inr (by simp only [width]; omega))
    · obtain ⟨u, b, hu, hl⟩ := ihb h
      exact ⟨u, b, .whileBody hu, hl⟩
    · exact hself (.inl rfl)
  | doWhile b c ihb =>
    rcases List.mem_append.1 h with h | h
    · obtain ⟨u, b, hu, hl⟩ := ihb h
      exact ⟨u, b, .doBody hu, hl⟩
    · exact hself (.inl (List.mem_singleton.1 h))
  | empty => cases h
  | seq first second ihf ihs =>
    rcases List.mem_append.1 h with h | h
    · obtain ⟨u, b, hu, hl⟩ := ihf h
      exact ⟨u, b, .first hu, hl⟩
    · obtain ⟨u, b, hu, hl⟩ := ihs h
      exact ⟨u, b, .second hu, hl⟩
  | expr e => cases h

end Stmt

namespace Program

variable {p : Program}

/-- The program has an instruction at each of its labels, in front of which the stack is empty. -/
theorem joint_of_mem_labels {l : Nat} (h : l ∈ p.body.labels 0) : p.Joint l := by
  obtain ⟨u, b, hu, rfl | rfl⟩ := Stmt.exists_part_of_mem_labels h
  · exact (joint_of_liesIn hu.liesIn).1
  · exact (joint_of_liesIn hu.liesIn).2

/-- The jumps of a program go to its labels, as far as a word of four bytes holds them. -/
theorem filterMap_target?_layout (p : Program) :
    p.layout.filterMap Instr.target? = (p.body.labels 0).map UInt32.ofNat := by
  rw [layout, List.filterMap_append, Stmt.filterMap_target?_code]
  exact List.append_nil _

theorem mem_literals_of_mem_layout {x : Value} (h : .push x ∈ p.layout) : x ∈ p.body.literals := by
  rw [← p.body.filterMap_literal?_code 0, List.mem_filterMap]
  rcases List.mem_append.1 h with h | h
  · exact ⟨_, h, rfl⟩
  · cases List.mem_singleton.1 h

/-- Code is read back as it is meant where texts and labels fit into their words. -/
theorem faithful_of_fits
    (htexts : ∀ s, .text s ∈ p.body.literals → (Text.bytes s).length < 2 ^ 32)
    (hlabels : ∀ l ∈ p.body.labels 0, l < 2 ^ 32) : p.Faithful where
  holds := holds_layout_of_texts fun s hs => htexts s (mem_literals_of_mem_layout hs)
  joint {i target} hi ht := by
    have hmem : target ∈ p.layout.filterMap Instr.target? := List.mem_filterMap.2 ⟨i, hi, ht⟩
    rw [filterMap_target?_layout] at hmem
    obtain ⟨l, hl, rfl⟩ := List.mem_map.1 hmem
    rw [UInt32.toNat_ofNat_of_lt' (hlabels l hl)]
    exact joint_of_mem_labels hl

end Program

/-! ## Texts -/

namespace Code

variable {c : Code} {a : Nat}

/-- **Of a pushed text as many bytes are read back as its length modulo `2 ^ 32` says.** The next
instruction is looked for behind these. -/
theorem decodeAt_text {s : String} (h : c.Has a (Instr.push (.text s)).encode) :
    c.decodeAt a =
      match Text.ofBytes? ((Text.bytes s).take ((Text.bytes s).length % 2 ^ 32)) with
      | some t => .ok (.push (.text t), a + 9 + (Text.bytes s).length % 2 ^ 32)
      | none => .error ⟨.invalidText, a⟩ := by
  obtain ⟨hop, hoperand⟩ := has_cons.1 h
  rw [operand] at hoperand
  generalize Text.bytes s = bs at hoperand ⊢
  have hlength : (bs.take (bs.length % 2 ^ 32)).length = bs.length % 2 ^ 32 :=
    List.length_take_of_le (Nat.mod_le _ _)
  -- the bytes that are read are the first ones of the text
  rw [← List.take_append_drop (bs.length % 2 ^ 32) bs, ← List.append_assoc,
    List.take_append_drop] at hoperand
  rw [decodeAt_push hop, readLiteral_of_has_tagged (has_append.1 hoperand).1 hlength, hlength]
  cases Text.ofBytes? (bs.take (bs.length % 2 ^ 32)) <;> rfl

end Code

/-- What the decoder finds where a program pushes a text, whatever the length of the text. -/
theorem Program.decodeAt_text {p : Program} {front back : List Instr} {s : String}
    (h : p.layout = front ++ .push (.text s) :: back) :
    p.compile.decodeAt (totalWidth front) =
      match Text.ofBytes? ((Text.bytes s).take ((Text.bytes s).length % 2 ^ 32)) with
      | some t => .ok (.push (.text t), totalWidth front + 9 + (Text.bytes s).length % 2 ^ 32)
      | none => .error ⟨.invalidText, totalWidth front⟩ := by
  have hall : p.compile.bytes.toList =
      encodeAll front ++ ((Instr.push (.text s)).encode ++ encodeAll back) := by
    rw [toList_compile, h, encodeAll_append, encodeAll_cons]
  exact Code.decodeAt_text (Code.has_of_eq hall)

/-- **Words wrap around, and no harm is done where they need not.** -/
theorem words_wrap_around (p : Program) :
    ((∀ s, .text s ∈ p.body.literals → (Text.bytes s).length < 2 ^ 32) →
        (∀ l ∈ p.body.labels 0, l < 2 ^ 32) → ∀ n r, Machine.run p.compile n = some r →
          (∃ store, r = .ok store) ∨ ∃ f, r = .error (.fault f)) ∧
      p.layout.filterMap Instr.target? = (p.body.labels 0).map UInt32.ofNat ∧
      ∀ front s back, p.layout = front ++ .push (.text s) :: back →
        p.compile.decodeAt (totalWidth front) =
          match Text.ofBytes? ((Text.bytes s).take ((Text.bytes s).length % 2 ^ 32)) with
          | some t => .ok (.push (.text t), totalWidth front + 9 + (Text.bytes s).length % 2 ^ 32)
          | none => .error ⟨.invalidText, totalWidth front⟩ := by
  refine ⟨fun htexts hlabels n r hr => ?_, p.filterMap_target?_layout, fun front s back h => ?_⟩
  · exact Machine.run_of_faithful (Program.faithful_of_fits htexts hlabels) hr
  · exact Program.decodeAt_text h

/-! ## A text that is executed -/

/-- A text whose length is written as zero is executed, from its first byte on. -/
theorem run_of_long_text {s : String} {b : UInt8} (hhead : (Text.bytes s).head? = some b)
    (hlength : (Text.bytes s).length % 2 ^ 32 = 0) (hb : Opcode.ofByte? b = none) :
    Machine.run (Program.mk (.expr (.text s))).compile 2 =
      some (.error (.decode ⟨.unknownOpcode b, 9⟩)) := by
  generalize hp : Program.mk (.expr (.text s)) = p
  have hlayout : p.layout = [] ++ .push (.text s) :: [.pop, .halt] := by rw [← hp]; rfl
  obtain ⟨bs, hbytes⟩ := List.head?_eq_some_iff.1 hhead
  have hall : p.compile.bytes.toList =
      (Opcode.push.byte :: (Code.textTag ++ Code.littleEndian 4 (b :: bs).length)) ++
        ([b] ++ (bs ++ encodeAll [.pop, .halt])) := by
    rw [p.toList_compile, hlayout]
    simp [encode, operand, opcode, hbytes]
  have hhas : p.compile.Has 9 [b] := Code.has_of_eq hall
  have hempty : Text.ofBytes? [] = some "" := Text.ofBytes?_eq_some_iff.2 rfl
  have hpush : p.compile.decodeAt 0 = .ok (.push (.text ""), 9) := by
    have hdecode := Program.decodeAt_text hlayout
    rwa [hlength, List.take_zero, hempty] at hdecode
  have hfirst : Machine.step p.compile .start = .next ⟨9, [.text ""], .zero⟩ := by
    have hlt : 0 < p.compile.size := Code.lt_size_of_decodeAt hpush
    rw [Machine.step, Machine.start, if_neg (Nat.not_le.2 hlt), hpush]
    rfl
  have hsecond : Machine.step p.compile ⟨9, [.text ""], .zero⟩ =
      .done (.error (.decode ⟨.unknownOpcode b, 9⟩)) := by
    have hlt : 9 < p.compile.size := hhas.le_size
    rw [Machine.step, if_neg (Nat.not_le.2 hlt), Code.decodeAt_of_unknown hhas hb]
  rw [Machine.run, runFor, hfirst]
  simp only
  rw [runFor, hsecond]

theorem bytes_replicate (n : Nat) :
    Text.bytes (String.ofList (List.replicate n 'A')) = List.replicate n 65 := by
  rw [Text.bytes, String.toByteArray_ofList, List.utf8Encode, List.data_toByteArray,
    List.toList_toArray, List.flatMap_replicate]
  exact List.flatten_replicate_singleton

/-- A text of as many bytes as a word of four bytes has values. Its length is written as zero, and
its letters are taken for opcodes. -/
theorem text_of_four_gibibytes_is_executed :
    let s := String.ofList (List.replicate (2 ^ 32) 'A')
    let p : Program := ⟨.expr (.text s)⟩
    parse p.print = .ok p ∧
      Machine.run p.compile 2 = some (.error (.decode ⟨.unknownOpcode 65, 9⟩)) := by
  intro s p
  have hquote : '"' ∉ s.toList := by
    rw [String.toList_ofList]
    exact fun h => absurd (List.eq_of_mem_replicate h) (by decide)
  refine ⟨parse_print hquote (by decide), run_of_long_text ?_ ?_ rfl⟩
  · rw [bytes_replicate, List.head?_replicate, if_neg (by decide)]
  · rw [bytes_replicate, List.length_replicate, Nat.mod_self]

end Abecedary
