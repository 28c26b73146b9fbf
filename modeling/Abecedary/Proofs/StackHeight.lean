import Mathlib.Data.List.Basic
import Abecedary.Proofs.Decoding
import Abecedary.Proofs.Layout

/-!
# The height of the stack

How high the stack is in front of an instruction of compiled code depends on the instruction alone.
Read straight through, jumps not taken, the code of an expression leaves the stack one higher and
that of a statement leaves it as it was (`Expr.heightAfter_code`, `Stmt.heightAfter_code`), and each
instruction finds the values it takes (`Instr.Balanced`). Where the code of a part of a statement
begins or ends the stack is empty, and jumps go to no other place (`Program.joint_target`), so that
a jump finds there the height that is found by coming from above.
-/

namespace Abecedary

/-! ## Instructions read straight through -/

namespace Instr

/-- How many values the instruction uses, from the top of the stack. -/
def takes : Instr → Nat
  | fetch _ | push _ | jump _ | halt => 0
  | store _ | pop | jumpIfZero _ | jumpIfNonZero _ => 1
  | apply _ => 2

/-- How many values the instruction leaves in their place. -/
def gives : Instr → Nat
  | fetch _ | store _ | push _ | apply _ => 1
  | pop | jumpIfZero _ | jumpIfNonZero _ | jump _ | halt => 0

/-- The height of a stack of `k` values behind some instructions. -/
def heightAfter (k : Nat) (is : List Instr) : Nat := is.foldl (fun k i => k - i.takes + i.gives) k

@[simp] theorem heightAfter_nil (k : Nat) : heightAfter k [] = k := rfl

@[simp] theorem heightAfter_cons (k : Nat) (i : Instr) (is : List Instr) :
    heightAfter k (i :: is) = heightAfter (k - i.takes + i.gives) is := rfl

@[simp] theorem heightAfter_append (k : Nat) (is js : List Instr) :
    heightAfter k (is ++ js) = heightAfter (heightAfter k is) js := List.foldl_append

/-- The height of a stack of `k` values in front of the instruction at an address, counted from the
first of the instructions. -/
def heightAt : (k : Nat) → List Instr → (a : Nat) → Nat
  | k, [], _ => k
  | k, i :: is, a => if a = 0 then k else heightAt (k - i.takes + i.gives) is (a - i.width)

theorem heightAt_totalWidth (k : Nat) (front back : List Instr) :
    heightAt k (front ++ back) (totalWidth front) = heightAfter k front := by
  induction front generalizing k with
  | nil => cases back <;> simp [heightAt]
  | cons i front ih =>
    have hpos := i.width_pos
    rw [List.cons_append, heightAt, if_neg (by rw [totalWidth_cons]; omega), totalWidth_cons,
      Nat.add_sub_cancel_left, ih, heightAfter_cons]

/-- The instruction fits a stack of `k` values, which may hold up to `limit`: it finds the values it
takes, and if it is a jump no others lie below them. -/
structure Fits (limit k : Nat) (i : Instr) : Prop where
  enough : i.takes ≤ k
  within : k ≤ limit
  level : i.target?.isSome → k = i.takes

/-- Each instruction fits the stack that those before it leave, the first one a stack of `k`
values. -/
def Balanced (limit : Nat) : (k : Nat) → List Instr → Prop
  | _, [] => True
  | k, i :: is => i.Fits limit k ∧ Balanced limit (k - i.takes + i.gives) is

theorem balanced_append {limit k : Nat} {is js : List Instr} :
    Balanced limit k (is ++ js) ↔
      Balanced limit k is ∧ Balanced limit (heightAfter k is) js := by
  induction is generalizing k with
  | nil => simp [Balanced]
  | cons i is ih => simp only [List.cons_append, Balanced, ih, heightAfter_cons, and_assoc]

theorem balanced_singleton {limit k : Nat} {i : Instr} :
    Balanced limit k [i] ↔ i.Fits limit k := Iff.of_eq (and_true _)

/-- The instructions begin with an empty stack and leave it empty. -/
structure Neutral (limit : Nat) (is : List Instr) : Prop where
  balanced : Balanced limit 0 is
  level : heightAfter 0 is = 0

theorem neutral_nil (limit : Nat) : Neutral limit [] := ⟨trivial, rfl⟩

theorem Neutral.append {limit : Nat} {is js : List Instr} (hi : Neutral limit is)
    (hj : Neutral limit js) : Neutral limit (is ++ js) := by
  refine ⟨balanced_append.2 ⟨hi.balanced, ?_⟩, ?_⟩
  · rw [hi.level]
    exact hj.balanced
  · rw [heightAfter_append, hi.level, hj.level]

theorem neutral_jump (limit : Nat) (target : Address) : Neutral limit [jump target] :=
  ⟨balanced_singleton.2 ⟨le_rfl, Nat.zero_le _, fun _ => rfl⟩, rfl⟩

end Instr

/-! ## Expressions and statements -/

/-- How high a stack the expression needs. -/
def Expr.stackNeed : Expr → Nat
  | var _ | constant _ | text _ => 1
  | binary left _ right => max left.stackNeed (1 + right.stackNeed)
  | assign _ value => value.stackNeed

/-- The largest need of the expressions of a statement. -/
def Stmt.stackNeed : Stmt → Nat
  | ifThen c t => max c.stackNeed t.stackNeed
  | ifElse c t e => max c.stackNeed (max t.stackNeed e.stackNeed)
  | whileDo c b => max c.stackNeed b.stackNeed
  | doWhile b c => max b.stackNeed c.stackNeed
  | empty => 0
  | seq first second => max first.stackNeed second.stackNeed
  | expr e => e.stackNeed

open Instr

namespace Expr

theorem stackNeed_pos (e : Expr) : 0 < e.stackNeed := by
  induction e <;> simp only [stackNeed] <;> omega

/-- The code of an expression puts one value on the stack. -/
@[simp] theorem heightAfter_code (e : Expr) (k : Nat) : heightAfter k e.code = k + 1 := by
  induction e generalizing k with
  | binary left op right ihl ihr => simp [code, ihl, ihr, takes, gives]
  | assign target value ih => simp [code, ih, takes, gives]
  | _ => simp [code, takes, gives]

theorem target?_of_mem_code (e : Expr) : ∀ i ∈ e.code, i.target? = none :=
  e.forall_mem_code (fun _ => rfl) (fun _ => rfl) (fun _ => rfl) (fun _ => rfl) fun _ => rfl

theorem ne_halt_of_mem_code (e : Expr) : ∀ i ∈ e.code, i ≠ .halt :=
  e.forall_mem_code (by simp) (by simp) (by simp) (by simp) (by simp)

/-- An instruction other than a jump fits when there are enough values and enough room. -/
theorem fits_of_target?_eq_none {limit k : Nat} {i : Instr} (hi : i.target? = none)
    (henough : i.takes ≤ k) (hlimit : k ≤ limit) : i.Fits limit k :=
  ⟨henough, hlimit, by simp [hi]⟩

/-- The code of an expression needs no more of the stack than it says. -/
theorem balanced_code (e : Expr) {limit k : Nat} (h : k + e.stackNeed ≤ limit) :
    Balanced limit k e.code := by
  induction e generalizing k with
  | binary left op right ihl ihr =>
    have hright := right.stackNeed_pos
    simp only [stackNeed] at h
    simp only [code, balanced_append, heightAfter_append, heightAfter_code, balanced_singleton]
    refine ⟨⟨ihl (by omega), ihr (by omega)⟩, fits_of_target?_eq_none rfl ?_ (by omega)⟩
    simp only [takes]
    omega
  | assign target value ih =>
    have hvalue := value.stackNeed_pos
    simp only [stackNeed] at h
    simp only [code, balanced_append, heightAfter_code, balanced_singleton]
    refine ⟨ih h, fits_of_target?_eq_none rfl ?_ (by omega)⟩
    simp only [takes]
    omega
  | _ =>
    simp only [stackNeed] at h
    exact balanced_singleton.2 (fits_of_target?_eq_none rfl (Nat.zero_le _) (by omega))

end Expr

/-- An expression leaves one value to the instruction behind it, which takes it. -/
theorem Expr.neutral_code_append {limit : Nat} {e : Expr} {i : Instr} (htakes : i.takes = 1)
    (hgives : i.gives = 0) (h : e.stackNeed ≤ limit) : Neutral limit (e.code ++ [i]) := by
  have hneed := e.stackNeed_pos
  constructor
  · rw [balanced_append, heightAfter_code, balanced_singleton]
    exact ⟨e.balanced_code (by omega), by omega, by omega, fun _ => htakes.symm⟩
  · simp [htakes, hgives]

namespace Stmt

/-- **The code of a statement leaves the stack as it was**, and needs no more of it than the
expressions of the statement do. -/
theorem neutral_code (s : Stmt) {limit : Nat} (h : s.stackNeed ≤ limit) (a : Nat) :
    Neutral limit (s.code a) := by
  induction s generalizing a with
  | ifThen c t iht =>
    obtain ⟨hc, ht⟩ := max_le_iff.1 h
    exact (Expr.neutral_code_append rfl rfl hc).append (iht ht _)
  | ifElse c t e iht ihe =>
    obtain ⟨hc, hbranches⟩ := max_le_iff.1 h
    obtain ⟨ht, he⟩ := max_le_iff.1 hbranches
    exact (((Expr.neutral_code_append rfl rfl hc).append (iht ht _)).append
      (neutral_jump ..)).append (ihe he _)
  | whileDo c b ihb =>
    obtain ⟨hc, hb⟩ := max_le_iff.1 h
    exact ((Expr.neutral_code_append rfl rfl hc).append (ihb hb _)).append (neutral_jump ..)
  | doWhile b c ihb =>
    obtain ⟨hb, hc⟩ := max_le_iff.1 h
    rw [code, List.append_assoc]
    exact (ihb hb _).append (Expr.neutral_code_append rfl rfl hc)
  | empty => exact neutral_nil limit
  | seq first second ihf ihs =>
    obtain ⟨hf, hs⟩ := max_le_iff.1 h
    exact (ihf hf _).append (ihs hs _)
  | expr e => exact Expr.neutral_code_append rfl rfl h

@[simp] theorem heightAfter_code (s : Stmt) (a : Nat) : heightAfter 0 (s.code a) = 0 :=
  (s.neutral_code le_rfl a).level

theorem halt_notMem_code (s : Stmt) (a : Nat) : .halt ∉ s.code a := by
  have hjump (i : Instr) (hi : i.target?.isSome) : i ≠ .halt := by
    rintro rfl
    cases hi
  exact fun hmem => s.forall_mem_code Expr.ne_halt_of_mem_code (by simp) hjump a _ hmem rfl

/-! ## The parts of a statement -/

/-- The statement `u` is a part of `s`, or is `s`, and its code begins at `b` where that of `s`
begins at `a`. -/
inductive Part : (s : Stmt) → (a : Nat) → (u : Stmt) → (b : Nat) → Prop
  | self (s : Stmt) (a : Nat) : Part s a s a
  | ifThen {c : Expr} {t u : Stmt} {a b : Nat} (h : Part t (a + c.width + 5) u b) :
    Part (.ifThen c t) a u b
  | thenBranch {c : Expr} {t e u : Stmt} {a b : Nat} (h : Part t (a + c.width + 5) u b) :
    Part (.ifElse c t e) a u b
  | elseBranch {c : Expr} {t e u : Stmt} {a b : Nat}
    (h : Part e (a + c.width + 5 + t.width + 5) u b) : Part (.ifElse c t e) a u b
  | whileBody {c : Expr} {s u : Stmt} {a b : Nat} (h : Part s (a + c.width + 5) u b) :
    Part (.whileDo c s) a u b
  | doBody {s : Stmt} {c : Expr} {u : Stmt} {a b : Nat} (h : Part s a u b) :
    Part (.doWhile s c) a u b
  | first {first second u : Stmt} {a b : Nat} (h : Part first a u b) :
    Part (.seq first second) a u b
  | second {first second u : Stmt} {a b : Nat} (h : Part second (a + first.width) u b) :
    Part (.seq first second) a u b

/-- The code of `u` at `b` is a stretch of that of `s` at `a`, in front of which the stack is
empty. -/
def LiesIn (u : Stmt) (b : Nat) (s : Stmt) (a : Nat) : Prop :=
  ∃ front back, s.code a = front ++ u.code b ++ back ∧ b = a + totalWidth front ∧
    heightAfter 0 front = 0

/-- What lies in a stretch of the code of `s` lies in the code of `s`. -/
theorem LiesIn.trans {s t u : Stmt} {a m b : Nat} (hu : u.LiesIn b t m) (ht : t.LiesIn m s a) :
    u.LiesIn b s a := by
  obtain ⟨front, back, hcode, rfl, hlevel⟩ := hu
  obtain ⟨front', back', hcode', rfl, hlevel'⟩ := ht
  refine ⟨front' ++ front, back ++ back', ?_, ?_, ?_⟩
  · rw [hcode', hcode]
    simp only [List.append_assoc]
  · rw [totalWidth_append, Nat.add_assoc]
  · rw [heightAfter_append, hlevel', hlevel]

theorem Part.liesIn {s u : Stmt} {a b : Nat} (h : s.Part a u b) : u.LiesIn b s a := by
  induction h with
  | self s a => exact ⟨[], [], by simp, by simp, rfl⟩
  | @ifThen c t _ a _ _ ih =>
    refine ih.trans ⟨c.code ++ [.jumpIfZero (.ofNat (a + c.width + 5 + t.width))], [], ?_, ?_, ?_⟩
    · simp [code]
    · simp [Expr.width, Nat.add_assoc]
    · simp [takes, gives]
  | @thenBranch c t e _ a _ _ ih =>
    refine ih.trans ⟨c.code ++ [.jumpIfZero (.ofNat (a + c.width + 5 + t.width + 5))],
      [.jump (.ofNat (a + c.width + 5 + t.width + 5 + e.width))] ++
        e.code (a + c.width + 5 + t.width + 5), ?_, ?_, ?_⟩
    · simp only [code, List.append_assoc]
    · simp [Expr.width, Nat.add_assoc]
    · simp [takes, gives]
  | @elseBranch c t e _ a _ _ ih =>
    refine ih.trans ⟨c.code ++ [.jumpIfZero (.ofNat (a + c.width + 5 + t.width + 5))] ++
      t.code (a + c.width + 5) ++ [.jump (.ofNat (a + c.width + 5 + t.width + 5 + e.width))],
      [], ?_, ?_, ?_⟩
    · simp only [code, List.append_assoc, List.append_nil]
    · simp [Expr.width, Nat.add_assoc]
    · simp [takes, gives]
  | @whileBody c s _ a _ _ ih =>
    refine ih.trans ⟨c.code ++ [.jumpIfZero (.ofNat (a + c.width + 5 + s.width + 5))],
      [.jump (.ofNat a)], ?_, ?_, ?_⟩
    · simp only [code, List.append_assoc]
    · simp [Expr.width, Nat.add_assoc]
    · simp [takes, gives]
  | @doBody s c _ a _ _ ih =>
    refine ih.trans ⟨[], c.code ++ [.jumpIfNonZero (.ofNat a)], ?_, by simp, rfl⟩
    simp only [code, List.append_assoc, List.nil_append]
  | @first first second _ a _ _ ih =>
    exact ih.trans ⟨[], second.code (a + first.width), by simp [code], by simp, rfl⟩
  | @second first second _ a _ _ ih =>
    exact ih.trans ⟨first.code a, [], by simp [code], by simp, by simp⟩

/-- A part of a statement has its code within that of the statement. -/
theorem Part.stop_le {s u : Stmt} {a b : Nat} (h : s.Part a u b) :
    b + u.width ≤ a + s.width := by
  obtain ⟨front, back, hcode, rfl, -⟩ := h.liesIn
  have hwidth := congrArg totalWidth hcode
  simp only [totalWidth_code, totalWidth_append] at hwidth
  omega

/-- If the instruction is a jump, it goes where the code of a part of the statement begins or
ends. -/
def JumpsWithin (s : Stmt) (a : Nat) (i : Instr) : Prop :=
  ∀ target, i.target? = some target →
    ∃ u b, s.Part a u b ∧ (target = .ofNat b ∨ target = .ofNat (b + u.width))

theorem jumpsWithin_of_target?_eq_none {s : Stmt} {a : Nat} {i : Instr} (h : i.target? = none) :
    s.JumpsWithin a i := by
  intro target ht
  rw [h] at ht
  cases ht

theorem JumpsWithin.mono {s t : Stmt} {a m : Nat} {i : Instr} (h : t.JumpsWithin m i)
    (hpart : ∀ {u b}, t.Part m u b → s.Part a u b) : s.JumpsWithin a i := by
  intro target ht
  obtain ⟨u, b, hu, htarget⟩ := h target ht
  exact ⟨u, b, hpart hu, htarget⟩

theorem jumpsWithin_start {s u : Stmt} {a b : Nat} {i : Instr} (hu : s.Part a u b)
    (hi : i.target? = some (.ofNat b)) : s.JumpsWithin a i := by
  intro target ht
  rw [hi] at ht
  exact ⟨u, b, hu, .inl (Option.some.inj ht).symm⟩

theorem jumpsWithin_stop {s u : Stmt} {a b : Nat} {i : Instr} (hu : s.Part a u b)
    (hi : i.target? = some (.ofNat (b + u.width))) : s.JumpsWithin a i := by
  intro target ht
  rw [hi] at ht
  exact ⟨u, b, hu, .inr (Option.some.inj ht).symm⟩

/-- **Jumps go where the code of a part begins or ends.** -/
theorem jumpsWithin_code (s : Stmt) (a : Nat) : ∀ i ∈ s.code a, s.JumpsWithin a i := by
  have hexpr (e : Expr) (s : Stmt) (a : Nat) : ∀ i ∈ e.code, s.JumpsWithin a i :=
    fun i hi => jumpsWithin_of_target?_eq_none (e.target?_of_mem_code i hi)
  induction s generalizing a with
  | ifThen c t iht =>
    simp only [code, List.forall_mem_append, List.forall_mem_singleton]
    refine ⟨⟨hexpr c _ a, ?_⟩, fun i hi => (iht _ i hi).mono .ifThen⟩
    exact jumpsWithin_stop (.self ..) (by simp [target?, width, Nat.add_assoc])
  | ifElse c t e iht ihe =>
    simp only [code, List.forall_mem_append, List.forall_mem_singleton]
    refine ⟨⟨⟨⟨hexpr c _ a, ?_⟩, fun i hi => (iht _ i hi).mono .thenBranch⟩, ?_⟩,
      fun i hi => (ihe _ i hi).mono .elseBranch⟩
    · exact jumpsWithin_start (.elseBranch (.self ..)) rfl
    · exact jumpsWithin_stop (.self ..) (by simp [target?, width, Nat.add_assoc])
  | whileDo c b ihb =>
    simp only [code, List.forall_mem_append, List.forall_mem_singleton]
    refine ⟨⟨⟨hexpr c _ a, ?_⟩, fun i hi => (ihb _ i hi).mono .whileBody⟩, ?_⟩
    · exact jumpsWithin_stop (.self ..) (by simp [target?, width, Nat.add_assoc])
    · exact jumpsWithin_start (.self ..) rfl
  | doWhile b c ihb =>
    simp only [code, List.forall_mem_append, List.forall_mem_singleton]
    refine ⟨⟨fun i hi => (ihb _ i hi).mono .doBody, hexpr c _ a⟩, ?_⟩
    exact jumpsWithin_start (.self ..) rfl
  | empty => simp [code]
  | seq first second ihf ihs =>
    simp only [code, List.forall_mem_append]
    exact ⟨fun i hi => (ihf _ i hi).mono .first, fun i hi => (ihs _ i hi).mono .second⟩
  | expr e =>
    simp only [code, List.forall_mem_append, List.forall_mem_singleton]
    exact ⟨hexpr e _ a, jumpsWithin_of_target?_eq_none rfl⟩

end Stmt

/-! ## Programs -/

namespace Program

/-- The listing of short code is its layout, each instruction at its address. -/
theorem instructions_compile {p : Program} (h : p.compile.size < 2 ^ 32) :
    p.compile.instructions = .ok (placed 0 p.layout) :=
  Code.instructions_eq_placed_iff.2 ⟨(p.holds_layout h).2, p.toList_compile⟩

/-- The program has an instruction at the address, in front of which the stack is empty. -/
def Joint (p : Program) (b : Nat) : Prop :=
  ∃ front i back, p.layout = front ++ i :: back ∧ b = totalWidth front ∧ heightAfter 0 front = 0

theorem joint_of_liesIn {p : Program} {u : Stmt} {b : Nat} (h : u.LiesIn b p.body 0) :
    p.Joint b ∧ p.Joint (b + u.width) := by
  obtain ⟨front, back, hcode, rfl, hlevel⟩ := h
  -- some instruction follows in any case, if only the last one
  have hsplit (front' back' : List Instr) (h : p.body.code 0 = front' ++ back')
      (hlevel : heightAfter 0 front' = 0) : p.Joint (totalWidth front') := by
    cases hback : back' ++ [Instr.halt] with
    | nil => simp at hback
    | cons i rest =>
      exact ⟨front', i, rest, by rw [layout, h, List.append_assoc, hback], rfl, hlevel⟩
  constructor
  · have := hsplit front (u.code (0 + totalWidth front) ++ back)
      (by rw [hcode, List.append_assoc]) hlevel
    rwa [Nat.zero_add]
  · have := hsplit (front ++ u.code (0 + totalWidth front)) back hcode (by simp [hlevel])
    simpa using this

theorem totalWidth_layout (p : Program) : totalWidth p.layout = p.compile.size := by
  rw [Code.size, ← Array.length_toList, toList_compile, length_encodeAll]

/-- Where the code of a program is short, an address of it is the number of its word. -/
theorem Joint.toNat_ofNat {p : Program} {b : Nat} (hb : p.Joint b)
    (h : p.compile.size < 2 ^ 32) : (UInt32.ofNat b).toNat = b := by
  obtain ⟨front, i, back, hlayout, rfl, -⟩ := hb
  refine UInt32.toNat_ofNat_of_lt' (lt_of_le_of_lt ?_ h)
  rw [← totalWidth_layout, hlayout, totalWidth_append]
  exact Nat.le_add_right ..

/-- **A jump goes to an instruction in front of which the stack is empty.** -/
theorem joint_target {p : Program} (h : p.compile.size < 2 ^ 32) {i : Instr} (hi : i ∈ p.layout)
    {target : Address} (ht : i.target? = some target) : p.Joint target.toNat := by
  rcases List.mem_append.1 hi with hi | hi
  · obtain ⟨u, b, hu, rfl | rfl⟩ := p.body.jumpsWithin_code 0 i hi target ht
    · have hb := (joint_of_liesIn hu.liesIn).1
      rwa [hb.toNat_ofNat h]
    · have hb := (joint_of_liesIn hu.liesIn).2
      rwa [hb.toNat_ofNat h]
  · rw [List.mem_singleton.1 hi] at ht
    cases ht

/-- The code of a program is read back as it is meant: the decoder tells each instruction, and each
jump goes to an instruction in front of which the stack is empty. -/
structure Faithful (p : Program) : Prop where
  holds : p.compile.Holds 0 p.layout
  joint : ∀ {i : Instr} {target : Address}, i ∈ p.layout → i.target? = some target →
    p.Joint target.toNat

theorem faithful_of_size {p : Program} (h : p.compile.size < 2 ^ 32) : p.Faithful :=
  ⟨p.holds_layout h, fun hi ht => p.joint_target h hi ht⟩

/-- Straight through a program every instruction fits, on a stack that holds no more values than
the largest need of its expressions. -/
theorem fits {p : Program} {front back : List Instr} {i : Instr}
    (h : p.layout = front ++ i :: back) :
    i.Fits p.body.stackNeed (heightAfter 0 front) := by
  have hhalt : Balanced p.body.stackNeed (heightAfter 0 (p.body.code 0)) [.halt] := by
    rw [Stmt.heightAfter_code, balanced_singleton]
    exact ⟨le_rfl, Nat.zero_le _, fun _ => rfl⟩
  have hall : Balanced p.body.stackNeed 0 p.layout :=
    balanced_append.2 ⟨(p.body.neutral_code le_rfl 0).balanced, hhalt⟩
  rw [h, balanced_append] at hall
  exact hall.2.1

/-- Only the last instruction halts. -/
theorem eq_code_of_halt {p : Program} {front back : List Instr}
    (h : p.layout = front ++ .halt :: back) : front = p.body.code 0 ∧ back = [] := by
  have hbody := p.body.halt_notMem_code 0
  obtain ⟨hfront, -, hback⟩ :=
    (List.append_cons_inj_of_notMem hbody List.not_mem_nil).1 h
  exact ⟨hfront.symm, hback.symm⟩

end Program

end Abecedary
