import Mathlib.Logic.Relation
import Abecedary.Code.Compile
import Abecedary.Proofs.BigStep

/-!
# Blocks regrouped

Sequences are built two statements at a time, so there are many trees for one succession of
statements: `Stmt.Regroups` leads from one to another by moving the brackets of a sequence or
dropping an empty statement in it, somewhere in the tree. Statements are alike when they have the
same code and end with the same outcomes (`Stmt.Alike`). A sequence is alike to its regroupings,
and so is every statement around it, since whatever surrounds alike statements is alike: the
compiler writes a part without looking into it, and the rules of execution ask of a part only how
it ends. So no number of regroupings, back and forth, makes a difference
(`regrouping_changes_nothing`).
-/

namespace Abecedary

namespace Stmt

/-- The second statement is the first one with the brackets of a sequence moved to the right, or
without an empty statement of a sequence, at one place in it. -/
inductive Regroups : Stmt → Stmt → Prop
  | assoc (a b c : Stmt) : Regroups (.seq (.seq a b) c) (.seq a (.seq b c))
  | emptyFirst (a : Stmt) : Regroups (.seq .empty a) a
  | emptySecond (a : Stmt) : Regroups (.seq a .empty) a
  | ifThen (c : Expr) {t t' : Stmt} (h : Regroups t t') : Regroups (.ifThen c t) (.ifThen c t')
  | thenBranch (c : Expr) {t t' : Stmt} (e : Stmt) (h : Regroups t t') :
    Regroups (.ifElse c t e) (.ifElse c t' e)
  | elseBranch (c : Expr) (t : Stmt) {e e' : Stmt} (h : Regroups e e') :
    Regroups (.ifElse c t e) (.ifElse c t e')
  | whileBody (c : Expr) {b b' : Stmt} (h : Regroups b b') :
    Regroups (.whileDo c b) (.whileDo c b')
  | doBody {b b' : Stmt} (c : Expr) (h : Regroups b b') : Regroups (.doWhile b c) (.doWhile b' c)
  | first {a a' : Stmt} (b : Stmt) (h : Regroups a a') : Regroups (.seq a b) (.seq a' b)
  | second (a : Stmt) {b b' : Stmt} (h : Regroups b b') : Regroups (.seq a b) (.seq a b')

/-! ## What parts contribute -/

/-- The second statement ends with every outcome that the first one ends with, from the same
store. -/
def Refines (s t : Stmt) : Prop := ∀ σ o, s.Executes σ o → t.Executes σ o

namespace Refines

variable {s s' t t' : Stmt}

theorem refl (s : Stmt) : s.Refines s := fun _ _ => id

theorem trans {u : Stmt} (hst : s.Refines t) (htu : t.Refines u) : s.Refines u :=
  fun σ o h => htu σ o (hst σ o h)

theorem ifThen (c : Expr) (ht : t.Refines t') : (Stmt.ifThen c t).Refines (.ifThen c t') := by
  intro σ o h
  cases h with
  | ifThenTrue hc hx h => exact .ifThenTrue hc hx (ht _ _ h)
  | ifThenFalse hc hx => exact .ifThenFalse hc hx
  | ifThenFault hc => exact .ifThenFault hc

theorem ifElse (c : Expr) (hs : s.Refines s') (ht : t.Refines t') :
    (Stmt.ifElse c s t).Refines (.ifElse c s' t') := by
  intro σ o h
  cases h with
  | ifElseTrue hc hx h => exact .ifElseTrue hc hx (hs _ _ h)
  | ifElseFalse hc hx h => exact .ifElseFalse hc hx (ht _ _ h)
  | ifElseFault hc => exact .ifElseFault hc

theorem whileDo (c : Expr) (ht : t.Refines t') : (Stmt.whileDo c t).Refines (.whileDo c t') := by
  intro σ o h
  generalize hloop : Stmt.whileDo c t = loop at h
  -- on the rounds of the loop
  induction h with
  | whileStop hc hx => cases hloop; exact .whileStop hc hx
  | whileAgain hc hx hb _ _ ih => cases hloop; exact .whileAgain hc hx (ht _ _ hb) (ih rfl)
  | whileBodyFault hc hx hb => cases hloop; exact .whileBodyFault hc hx (ht _ _ hb)
  | whileFault hc => cases hloop; exact .whileFault hc
  | _ => cases hloop

theorem doWhile (ht : t.Refines t') (c : Expr) : (Stmt.doWhile t c).Refines (.doWhile t' c) := by
  intro σ o h
  generalize hloop : Stmt.doWhile t c = loop at h
  induction h with
  | doStop hb hc hx => cases hloop; exact .doStop (ht _ _ hb) hc hx
  | doAgain hb hc hx _ _ ih => cases hloop; exact .doAgain (ht _ _ hb) hc hx (ih rfl)
  | doBodyFault hb => cases hloop; exact .doBodyFault (ht _ _ hb)
  | doFault hb hc => cases hloop; exact .doFault (ht _ _ hb) hc
  | _ => cases hloop

theorem seq (hs : s.Refines s') (ht : t.Refines t') : (Stmt.seq s t).Refines (.seq s' t') := by
  intro σ o h
  cases h with
  | seq hfirst hsecond => exact .seq (hs _ _ hfirst) (ht _ _ hsecond)
  | seqFault hfirst => exact .seqFault (hs _ _ hfirst)

end Refines

/-! ## Alike statements -/

/-- The statements have the same code, wherever it is written, and end with the same outcomes. -/
structure Alike (s t : Stmt) : Prop where
  compile : ∀ out, s.compile out = t.compile out
  refines : s.Refines t
  refined : t.Refines s

namespace Alike

variable {s s' t t' : Stmt}

theorem equivalence : Equivalence Alike where
  refl s := ⟨fun _ => rfl, .refl s, .refl s⟩
  symm h := ⟨fun out => (h.compile out).symm, h.refined, h.refines⟩
  trans h₁ h₂ := ⟨fun out => (h₁.compile out).trans (h₂.compile out), h₁.refines.trans h₂.refines,
    h₂.refined.trans h₁.refined⟩

theorem refl (s : Stmt) : s.Alike s := equivalence.refl s

/-- How alike statements end. -/
theorem executes_iff (h : s.Alike t) {σ : Store} {o : Outcome} :
    s.Executes σ o ↔ t.Executes σ o := ⟨h.refines σ o, h.refined σ o⟩

theorem ifThen (c : Expr) (ht : t.Alike t') : (Stmt.ifThen c t).Alike (.ifThen c t') where
  compile out := by simp only [Stmt.compile, ht.compile]
  refines := ht.refines.ifThen c
  refined := ht.refined.ifThen c

theorem ifElse (c : Expr) (hs : s.Alike s') (ht : t.Alike t') :
    (Stmt.ifElse c s t).Alike (.ifElse c s' t') where
  compile out := by simp only [Stmt.compile, hs.compile, ht.compile]
  refines := hs.refines.ifElse c ht.refines
  refined := hs.refined.ifElse c ht.refined

theorem whileDo (c : Expr) (ht : t.Alike t') : (Stmt.whileDo c t).Alike (.whileDo c t') where
  compile out := by simp only [Stmt.compile, ht.compile]
  refines := ht.refines.whileDo c
  refined := ht.refined.whileDo c

theorem doWhile (ht : t.Alike t') (c : Expr) : (Stmt.doWhile t c).Alike (.doWhile t' c) where
  compile out := by simp only [Stmt.compile, ht.compile]
  refines := ht.refines.doWhile c
  refined := ht.refined.doWhile c

theorem seq (hs : s.Alike s') (ht : t.Alike t') : (Stmt.seq s t).Alike (.seq s' t') where
  compile out := by rw [compile_seq, compile_seq, hs.compile, ht.compile]
  refines := hs.refines.seq ht.refines
  refined := hs.refined.seq ht.refined

/-- The brackets of a sequence do not matter. -/
theorem assoc (a b c : Stmt) : (Stmt.seq (.seq a b) c).Alike (.seq a (.seq b c)) where
  compile out := by simp only [compile_seq]
  refines σ o h := by
    cases h with
    | seq hab hc => cases hab with | seq ha hb => exact .seq ha (.seq hb hc)
    | seqFault hab =>
      cases hab with
      | seq ha hb => exact .seq ha (.seqFault hb)
      | seqFault ha => exact .seqFault ha
  refined σ o h := by
    cases h with
    | seqFault ha => exact .seqFault (.seqFault ha)
    | seq ha hbc =>
      cases hbc with
      | seq hb hc => exact .seq (.seq ha hb) hc
      | seqFault hb => exact .seqFault (.seq ha hb)

theorem emptyFirst (a : Stmt) : (Stmt.seq .empty a).Alike a where
  compile out := by rw [compile_seq, Stmt.compile]
  refines σ o h := by
    cases h with
    | seq hempty ha => cases hempty; exact ha
    | seqFault hempty => cases hempty
  refined σ o h := .seq (.empty σ) h

theorem emptySecond (a : Stmt) : (Stmt.seq a .empty).Alike a where
  compile out := by rw [compile_seq, Stmt.compile]
  refines σ o h := by
    cases h with
    | seq ha hempty => cases hempty; exact ha
    | seqFault ha => exact ha
  refined σ o h := by
    cases o with
    | finished σ' => exact .seq h (.empty σ')
    | faulted f σ' => exact .seqFault h

end Alike

/-- **A statement is alike to its regroupings**, however deep in it they are. -/
theorem Regroups.alike {s t : Stmt} (h : s.Regroups t) : s.Alike t := by
  induction h with
  | assoc a b c => exact .assoc a b c
  | emptyFirst a => exact .emptyFirst a
  | emptySecond a => exact .emptySecond a
  | ifThen c _ ih => exact .ifThen c ih
  | thenBranch c e _ ih => exact .ifElse c ih (.refl e)
  | elseBranch c t _ ih => exact .ifElse c (.refl t) ih
  | whileBody c _ ih => exact .whileDo c ih
  | doBody c _ ih => exact .doWhile ih c
  | first b _ ih => exact .seq ih (.refl b)
  | second a _ ih => exact .seq (.refl a) ih

theorem alike_of_eqvGen {s t : Stmt} (h : Relation.EqvGen Regroups s t) : s.Alike t :=
  Alike.equivalence.eqvGen_iff.1 (h.mono fun _ _ => Regroups.alike)

end Stmt

/-- **Blocks can be regrouped.** Programs that differ by any number of regroupings have the same
code, byte for byte. Their evaluations end with the same outcomes, each a store or a fault with the
store as it then is, and one runs on for ever exactly when the other does. -/
theorem regrouping_changes_nothing {p q : Program}
    (h : Relation.EqvGen Stmt.Regroups p.body q.body) :
    p.compile = q.compile ∧
      (∀ o, (∃ n, Evaluation.run p n = some o) ↔ ∃ n, Evaluation.run q n = some o) ∧
      ((∀ n, Evaluation.run p n = none) ↔ ∀ n, Evaluation.run q n = none) := by
  have halike := Stmt.alike_of_eqvGen h
  have hends (o : Outcome) :
      Finishes Evaluation.step (.start p) o ↔ Finishes Evaluation.step (.start q) o :=
    Evaluation.finishes_start_iff.trans
      (halike.executes_iff.trans Evaluation.finishes_start_iff.symm)
  refine ⟨?_, hends, ?_⟩
  · rw [Program.compile, Program.compile, halike.compile]
  · simp only [Evaluation.run, forall_runFor_eq_none_iff, hends]

/-- Two loops with `b = 1; b;` in a branch, grouped to the left behind an empty statement, as a
block is, and to the right with an empty statement behind it. -/
theorem regrouping_changes_nothing_in_loop :
    let a : Variable := ⟨0⟩
    let b : Variable := ⟨1⟩
    let s : Stmt := .expr (.assign b (.constant 1))
    let t : Stmt := .expr (.var b)
    let p : Program :=
      ⟨.doWhile (.ifElse (.var a) (.seq (.seq .empty s) t) .empty) (.var a)⟩
    let q : Program :=
      ⟨.doWhile (.ifElse (.var a) (.seq s (.seq t .empty)) .empty) (.var a)⟩
    p ≠ q ∧ Relation.EqvGen Stmt.Regroups p.body q.body ∧ p.compile = q.compile ∧
      ∀ o, (∃ n, Evaluation.run p n = some o) ↔ ∃ n, Evaluation.run q n = some o := by
  intro a b s t p q
  have inside {u v : Stmt} (h : u.Regroups v) : Relation.EqvGen Stmt.Regroups
      (.doWhile (.ifElse (.var a) u .empty) (.var a))
      (.doWhile (.ifElse (.var a) v .empty) (.var a)) :=
    .rel _ _ (.doBody _ (.thenBranch _ _ h))
  -- both lead to the plain sequence of the two statements
  have hp := (inside (.assoc .empty s t)).trans _ _ _ (inside (.emptyFirst (.seq s t)))
  have hq := inside (.second s (.emptySecond t))
  have h : Relation.EqvGen Stmt.Regroups p.body q.body := hp.trans _ _ _ (hq.symm _ _)
  obtain ⟨hcompile, hends, -⟩ := regrouping_changes_nothing h
  exact ⟨by decide, h, hcompile, hends⟩

end Abecedary
