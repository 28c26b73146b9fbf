import Abecedary.Proofs.StackHeight

/-!
# The fragment table

`Stmt.Fragment s a es b` says of a listing alone what the code of a statement is: `es` are its
instructions, each at its address, from the address `a` to the address `b`. There is a rule for each
form of expression and statement; a jump is labelled with the address at which the fragment that it
goes to begins or ends, and nothing is computed beforehand. The layout follows the table
(`Stmt.fragment_code`), and nothing else does (`Stmt.Fragment.eq_code`), so the listing of a
compiled program is what the table says (`listing_follows_the_fragment_table`).
-/

namespace Abecedary

open Instr

/-! ## The table -/

/-- The fragment of an expression: operands from left to right, the operator behind them; a value
and the store behind it. -/
inductive Expr.Fragment : Expr → (a : Nat) → List (Nat × Instr) → (b : Nat) → Prop
  | var (v : Variable) (a : Nat) : Fragment (.var v) a [(a, .fetch v)] (a + 2)
  | constant (n : Int64) (a : Nat) :
    Fragment (.constant n) a [(a, .push (.number (.ofInt64 n)))] (a + 9)
  | text (s : String) (a : Nat) :
    Fragment (.text s) a [(a, .push (.text s))] (a + 9 + (Text.bytes s).length)
  | binary {left right : Expr} {op : Operator} {a m n : Nat} {ls rs : List (Nat × Instr)}
    (hleft : Fragment left a ls m) (hright : Fragment right m rs n) :
    Fragment (.binary left op right) a (ls ++ rs ++ [(n, .apply op)]) (n + 1)
  | assign {target : Variable} {value : Expr} {a n : Nat} {vs : List (Nat × Instr)}
    (hvalue : Fragment value a vs n) :
    Fragment (.assign target value) a (vs ++ [(n, .store target)]) (n + 2)

/-- The fragment of a statement. -/
inductive Stmt.Fragment : Stmt → (a : Nat) → List (Nat × Instr) → (b : Nat) → Prop
  /-- The jump behind the condition goes just past the branch. -/
  | ifThen {c : Expr} {t : Stmt} {a m b : Nat} {cs ts : List (Nat × Instr)} {skip : Address}
    (hc : c.Fragment a cs m) (ht : Fragment t (m + 5) ts b) (hskip : skip.toNat = b) :
    Fragment (.ifThen c t) a (cs ++ [(m, .jumpIfZero skip)] ++ ts) b
  /-- The jump behind the condition goes to the second branch, just past the jump that goes just
  past the second branch. -/
  | ifElse {c : Expr} {t e : Stmt} {a m n b : Nat} {cs ts es : List (Nat × Instr)}
    {toElse toEnd : Address} (hc : c.Fragment a cs m) (ht : Fragment t (m + 5) ts n)
    (he : Fragment e (n + 5) es b) (helse : toElse.toNat = n + 5) (hend : toEnd.toNat = b) :
    Fragment (.ifElse c t e) a
      (cs ++ [(m, .jumpIfZero toElse)] ++ ts ++ [(n, .jump toEnd)] ++ es) b
  /-- The jump behind the condition goes just past the jump that goes back to the condition. -/
  | whileDo {c : Expr} {s : Stmt} {a m n : Nat} {cs ss : List (Nat × Instr)} {exit back : Address}
    (hc : c.Fragment a cs m) (hs : Fragment s (m + 5) ss n) (hexit : exit.toNat = n + 5)
    (hback : back.toNat = a) :
    Fragment (.whileDo c s) a (cs ++ [(m, .jumpIfZero exit)] ++ ss ++ [(n, .jump back)]) (n + 5)
  /-- The jump behind the condition goes back to the body. -/
  | doWhile {s : Stmt} {c : Expr} {a m n : Nat} {ss cs : List (Nat × Instr)} {back : Address}
    (hs : Fragment s a ss m) (hc : c.Fragment m cs n) (hback : back.toNat = a) :
    Fragment (.doWhile s c) a (ss ++ cs ++ [(n, .jumpIfNonZero back)]) (n + 5)
  | empty (a : Nat) : Fragment .empty a [] a
  | seq {first second : Stmt} {a m b : Nat} {fs ss : List (Nat × Instr)}
    (hfirst : Fragment first a fs m) (hsecond : Fragment second m ss b) :
    Fragment (.seq first second) a (fs ++ ss) b
  | expr {e : Expr} {a n : Nat} {es : List (Nat × Instr)} (he : e.Fragment a es n) :
    Fragment (.expr e) a (es ++ [(n, .pop)]) (n + 1)

/-! ## The layout follows it -/

namespace Instr

@[simp] theorem width_apply (op : Operator) : (apply op).width = 1 := rfl

@[simp] theorem width_store (v : Variable) : (store v).width = 2 := rfl

end Instr

namespace Expr

theorem width_text (s : String) : (text s).width = 9 + (Text.bytes s).length := by
  simp [width, code, Instr.width, Instr.encode, Instr.operand, Code.textTag]
  omega

/-- The listing of an expression whose code begins at an address. -/
theorem fragment_code (e : Expr) (a : Nat) : e.Fragment a (placed a e.code) (a + e.width) := by
  induction e generalizing a with
  | var v => exact .var v a
  | constant n => exact .constant n a
  | text s =>
    rw [width_text, ← Nat.add_assoc]
    exact .text s a
  | binary left op right ihl ihr =>
    have : (binary left op right).Fragment a _ _ := .binary (ihl a) (ihr (a + left.width))
    simpa [code, width, Nat.add_assoc] using this
  | assign target value ih =>
    have : (assign target value).Fragment a _ _ := .assign (ih a)
    simpa [code, width, Nat.add_assoc] using this

theorem Fragment.eq_code {e : Expr} {a b : Nat} {es : List (Nat × Instr)}
    (h : e.Fragment a es b) : es = placed a e.code ∧ b = a + e.width := by
  induction h with
  | var v a => exact ⟨rfl, rfl⟩
  | constant n a => exact ⟨rfl, rfl⟩
  | text s a => exact ⟨rfl, by rw [width_text, Nat.add_assoc]⟩
  | binary _ _ ihl ihr =>
    obtain ⟨rfl, rfl⟩ := ihl
    obtain ⟨rfl, rfl⟩ := ihr
    simp [code, width, Nat.add_assoc]
  | assign _ ih =>
    obtain ⟨rfl, rfl⟩ := ih
    simp [code, width, Nat.add_assoc]

end Expr

namespace Stmt

/-- The listing of a statement whose code begins at an address, if addresses reach as far. -/
theorem fragment_code (s : Stmt) {a : Nat} (h : a + s.width < 2 ^ 32) :
    s.Fragment a (placed a (s.code a)) (a + s.width) := by
  have hnat {b : Nat} (hb : b < 2 ^ 32) : (UInt32.ofNat b).toNat = b :=
    UInt32.toNat_ofNat_of_lt' hb
  induction s generalizing a with
  | ifThen c t iht =>
    simp only [width] at h
    have ht := iht (a := a + c.width + 5) (by omega)
    have := Fragment.ifThen (c.fragment_code a) ht (hnat (by omega))
    simpa [code, width, Expr.width, Nat.add_assoc] using this
  | ifElse c t e iht ihe =>
    simp only [width] at h
    have ht := iht (a := a + c.width + 5) (by omega)
    have he := ihe (a := a + c.width + 5 + t.width + 5) (by omega)
    have := Fragment.ifElse (c.fragment_code a) ht he (hnat (by omega)) (hnat (by omega))
    simpa [code, width, Expr.width, Nat.add_assoc] using this
  | whileDo c b ihb =>
    simp only [width] at h
    have hb := ihb (a := a + c.width + 5) (by omega)
    have := Fragment.whileDo (c.fragment_code a) hb (hnat (by omega)) (hnat (by omega))
    simpa [code, width, Expr.width, Nat.add_assoc] using this
  | doWhile b c ihb =>
    simp only [width] at h
    have hb := ihb (a := a) (by omega)
    have := Fragment.doWhile hb (c.fragment_code (a + b.width)) (hnat (by omega))
    simpa [code, width, Expr.width, Nat.add_assoc] using this
  | empty => exact .empty a
  | seq first second ihf ihs =>
    simp only [width] at h
    have hf := ihf (a := a) (by omega)
    have := Fragment.seq hf (ihs (a := a + first.width) (by omega))
    simpa [code, width, Nat.add_assoc] using this
  | expr e =>
    have := Fragment.expr (e.fragment_code a)
    simpa [code, width, Expr.width, Nat.add_assoc] using this

theorem Fragment.eq_code {s : Stmt} {a b : Nat} {es : List (Nat × Instr)}
    (h : s.Fragment a es b) : es = placed a (s.code a) ∧ b = a + s.width := by
  have hword (t : Address) {b : Nat} (ht : t.toNat = b) : t = .ofNat b := by
    rw [← ht, UInt32.ofNat_toNat]
  induction h with
  | ifThen hc _ hskip iht =>
    obtain ⟨rfl, rfl⟩ := hc.eq_code
    obtain ⟨rfl, rfl⟩ := iht
    rw [hword _ hskip]
    simp [code, width, Expr.width, Nat.add_assoc]
  | ifElse hc _ _ helse hend iht ihe =>
    obtain ⟨rfl, rfl⟩ := hc.eq_code
    obtain ⟨rfl, rfl⟩ := iht
    obtain ⟨rfl, rfl⟩ := ihe
    rw [hword _ helse, hword _ hend]
    simp [code, width, Expr.width, Nat.add_assoc]
  | whileDo hc _ hexit hback ihs =>
    obtain ⟨rfl, rfl⟩ := hc.eq_code
    obtain ⟨rfl, rfl⟩ := ihs
    rw [hword _ hexit, hword _ hback]
    simp [code, width, Expr.width, Nat.add_assoc]
  | doWhile _ hc hback ihs =>
    obtain ⟨rfl, rfl⟩ := ihs
    obtain ⟨rfl, rfl⟩ := hc.eq_code
    rw [hword _ hback]
    simp [code, width, Expr.width, Nat.add_assoc]
  | empty a => exact ⟨rfl, rfl⟩
  | seq _ _ ihf ihs =>
    obtain ⟨rfl, rfl⟩ := ihf
    obtain ⟨rfl, rfl⟩ := ihs
    simp [code, width, Nat.add_assoc]
  | expr he =>
    obtain ⟨rfl, rfl⟩ := he.eq_code
    simp [code, width, Expr.width, Nat.add_assoc]

end Stmt

/-! ## Literals -/

/-- What the instruction pushes, if it is a literal. -/
def Instr.literal? : Instr → Option Value
  | push x => some x
  | _ => none

/-- The values of the literals of an expression, from left to right. -/
def Expr.literals : Expr → List Value
  | var _ => []
  | constant n => [.number (.ofInt64 n)]
  | text s => [.text s]
  | binary left _ right => left.literals ++ right.literals
  | assign _ value => value.literals

/-- The values of the literals of a statement, in the order in which they are written. -/
def Stmt.literals : Stmt → List Value
  | ifThen c t => c.literals ++ t.literals
  | ifElse c t e => c.literals ++ t.literals ++ e.literals
  | whileDo c s => c.literals ++ s.literals
  | doWhile s c => s.literals ++ c.literals
  | empty => []
  | seq first second => first.literals ++ second.literals
  | expr e => e.literals

theorem Expr.filterMap_literal?_code (e : Expr) : e.code.filterMap literal? = e.literals := by
  induction e with
  | binary left op right ihl ihr => simp [code, literals, literal?, ihl, ihr]
  | assign target value ih => simp [code, literals, literal?, ih]
  | _ => rfl

/-- The code of a statement pushes its literals, each once. -/
theorem Stmt.filterMap_literal?_code (s : Stmt) (a : Nat) :
    (s.code a).filterMap literal? = s.literals := by
  have hexpr := Expr.filterMap_literal?_code
  induction s generalizing a with
  | ifThen c t iht => simp [code, literals, literal?, List.filterMap_cons, hexpr, iht]
  | ifElse c t e iht ihe => simp [code, literals, literal?, List.filterMap_cons, hexpr, iht, ihe]
  | whileDo c b ihb => simp [code, literals, literal?, List.filterMap_cons, hexpr, ihb]
  | doWhile b c ihb => simp [code, literals, literal?, hexpr, ihb]
  | empty => rfl
  | seq first second ihf ihs => simp [code, literals, ihf, ihs]
  | expr e => simp [code, literals, literal?, hexpr]

/-! ## Programs -/

/-- **The listing follows the fragment table.** The listing of short code is the one that the table
gives for the program, and `halt` behind it. Every jump in it goes to an instruction of the listing,
it pushes the literals of the program, and only its last instruction halts. -/
theorem listing_follows_the_fragment_table {p : Program} (h : p.compile.size < 2 ^ 32) :
    ∃ es n, (∀ es' n', p.body.Fragment 0 es' n' ↔ es' = es ∧ n' = n) ∧
      p.compile.size = n + 1 ∧ p.compile.instructions = .ok (es ++ [(n, .halt)]) ∧
      (∀ e ∈ es, ∀ target, e.2.target? = some target →
        ∃ i, (target.toNat, i) ∈ es ++ [(n, .halt)]) ∧
      (∀ a, (a, .halt) ∉ es) ∧
      (es.map Prod.snd).filterMap literal? = p.body.literals := by
  have hsize := p.size_compile
  have hlayout : placed 0 p.layout =
      placed 0 (p.body.code 0) ++ [(p.body.width, Instr.halt)] := by
    simp [Program.layout]
  refine ⟨placed 0 (p.body.code 0), p.body.width, ?_, hsize, ?_, ?_, ?_, ?_⟩
  · intro es n
    constructor
    · intro hes
      simpa using hes.eq_code
    · rintro ⟨rfl, rfl⟩
      simpa using p.body.fragment_code (a := 0) (by omega)
  · rw [← hlayout]
    exact p.instructions_compile h
  · rintro ⟨a, i⟩ hi target ht
    obtain ⟨front, back, hcode, -⟩ := mem_placed.1 hi
    have hmem : i ∈ p.layout := by simp [Program.layout, hcode]
    obtain ⟨front, j, back, hsplit, hj, -⟩ := p.joint_target h hmem ht
    rw [← hlayout]
    exact ⟨j, mem_placed.2 ⟨front, back, hsplit, by rw [hj, Nat.zero_add]⟩⟩
  · intro a ha
    obtain ⟨front, back, hcode, -⟩ := mem_placed.1 ha
    exact p.body.halt_notMem_code 0 (by simp [hcode])
  · rw [map_snd_placed, Stmt.filterMap_literal?_code]

/-- The listing of `while (a) if ("é") ; else do b = -1; while (b);`. -/
theorem listing_of_nested_loops :
    let a : Variable := ⟨0⟩
    let b : Variable := ⟨1⟩
    let p : Program := ⟨.whileDo (.var a) (.ifElse (.text "é") .empty
      (.doWhile (.expr (.assign b (.constant (-1)))) (.var b)))⟩
    p.compile.size < 2 ^ 32 ∧
      p.compile.instructions = .ok [(0, .fetch a), (2, .jumpIfZero 52), (7, .push (.text "é")),
        (18, .jumpIfZero 28), (23, .jump 47), (28, .push (.number (.ofInt64 (-1)))),
        (37, .store b), (39, .pop), (40, .fetch b), (42, .jumpIfNonZero 28), (47, .jump 0),
        (52, .halt)] := by
  intro a b p
  have h : p.compile.size < 2 ^ 32 := by
    rw [Program.size_compile]
    decide
  obtain ⟨es, n, hes, -, hlisting, -⟩ := listing_follows_the_fragment_table h
  have hstore : (Expr.assign b (.constant (-1))).Fragment 28 _ _ := .assign (.constant (-1) 28)
  have hloop := Stmt.Fragment.doWhile (.expr hstore) (.var b 40)
    (show (28 : Address).toNat = 28 from rfl)
  have hbranches := Stmt.Fragment.ifElse (.text "é" 7) (.empty 23) hloop
    (show (28 : Address).toNat = 28 from rfl) (show (47 : Address).toNat = 47 from rfl)
  have hall := Stmt.Fragment.whileDo (.var a 0) hbranches
    (show (52 : Address).toNat = 52 from rfl) (show (0 : Address).toNat = 0 from rfl)
  obtain ⟨rfl, rfl⟩ := (hes _ _).1 hall
  exact ⟨h, hlisting⟩

end Abecedary
