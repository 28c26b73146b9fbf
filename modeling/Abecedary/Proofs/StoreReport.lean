import Abecedary.Proofs.Quotation
import Abecedary.Store

/-!
# Reports identify stores

The report of a store is made of lines, and the line of a variable tells its name and what it holds:
a number is written without quotes and a text between quotes, so that no text can be taken for a
number, for the end of a line, or for another line. A variable that holds a zero has no line. So two
stores have the same report exactly if every variable shows the same in both
(`report_identifies_store`).
-/

namespace Abecedary

/-! ## What numbers are written with -/

section Characters

variable {c : Char} (hdigit : ∀ d, c ≠ Nat.digitChar d)
include hdigit

theorem Decimal.notMem_chars (hdot : c ≠ '.') (d : Decimal) : c ∉ d.chars := by
  have hdigits : c ∉ Nat.toDigits 10 d.digits := Text.notMem_toDigits hdigit (by decide) d.digits
  have hzero : c ≠ '0' := hdigit 0
  intro hmem
  unfold chars at hmem
  dsimp only at hmem
  split at hmem
  · simp [hdigits, hzero] at hmem
  · -- the digits on both sides of the point are those of the number and zeros
    have hpadded (n : Nat) : c ∉ List.replicate n '0' ++ Nat.toDigits 10 d.digits := by
      simp [hdigits, hzero]
    rcases List.mem_append.1 hmem with hmem | hmem
    · exact hpadded _ (List.mem_of_mem_take hmem)
    · rcases List.mem_cons.1 hmem with hmem | hmem
      · exact hdot hmem
      · exact hpadded _ (List.mem_of_mem_drop hmem)

theorem Number.notMem_text (hother : c ∉ ['.', '-', 'i', 'n', 'N']) (x : Number) :
    c ∉ x.text.toList := by
  have hzero : c ≠ '0' := hdigit 0
  have ha : c ≠ 'a' := hdigit 10
  have hf : c ≠ 'f' := hdigit 15
  simp only [List.mem_cons, List.not_mem_nil, or_false, not_or] at hother
  obtain ⟨hdot, hminus, hi, hn, hN⟩ := hother
  have hchars := Decimal.notMem_chars hdigit hdot (Cell.ofNumber x).shortest
  unfold text display
  split
  · simpa using hzero
  · split
    · rw [String.toList_ofList]
      split <;> split <;> simp [hchars, hzero, hminus]
    · split
      · split <;> simp [hminus, hi, hn, hf]
      · simp [hN, ha]

end Characters

/-! ## What values show -/

namespace Value

/-- Whether two values cannot be told apart in a report: both are zero, of whatever sign, or both
are other numbers with the same text, or both are the same text. -/
inductive ShowsAs : Value → Value → Prop
  | zero {x y : Number} (hx : x.isZero = true) (hy : y.isZero = true) :
    ShowsAs (number x) (number y)
  | number {x y : Number} (hx : x.isZero = false) (hy : y.isZero = false) (h : x.text = y.text) :
    ShowsAs (number x) (number y)
  | text (s : String) : ShowsAs (text s) (text s)

theorem isLine_display (v : Value) : Text.IsLine v.display := by
  cases v with
  | number x => exact x.notMem_text (by simp) (by simp)
  | text s => exact Text.isLine_quote s

/-- **A number never shows as a text does**, which begins with a quote. -/
theorem display_number_ne (x : Number) (s : String) : (number x).display ≠ (text s).display := by
  intro h
  have hquote : '"' ∈ (text s).display.toList := by simp [display, Text.quote]
  rw [← h] at hquote
  exact x.notMem_text (by simp) (by simp) hquote

theorem ShowsAs.isZero_eq {v w : Value} (h : v.ShowsAs w) : v.isZero = w.isZero := by
  obtain ⟨hx, hy⟩ | ⟨hx, hy, -⟩ | s := h
  · exact hx.trans hy.symm
  · exact hx.trans hy.symm
  · rfl

/-- Zeros cannot be told apart. -/
theorem showsAs_of_isZero {v w : Value} (hv : v.isZero = true) (hw : w.isZero = true) :
    v.ShowsAs w := by
  cases v with
  | number x =>
    cases w with
    | number y => exact .zero hv hw
    | text t => cases hw
  | text s => cases hv

/-- Values that are no zeros are told apart by what is displayed of them. -/
theorem showsAs_iff_display_eq {v w : Value} (hv : v.isZero = false) (hw : w.isZero = false) :
    v.ShowsAs w ↔ v.display = w.display := by
  constructor
  · rintro (⟨hx, -⟩ | ⟨-, -, h⟩ | s)
    · exact absurd hv (by simp [isZero, hx])
    · exact h
    · rfl
  · intro h
    cases v with
    | number x =>
      cases w with
      | number y => exact .number hv hw h
      | text t => exact (display_number_ne x t h).elim
    | text s =>
      cases w with
      | number y => exact (display_number_ne y s h.symm).elim
      | text t =>
        obtain rfl := Text.quote_inj.1 h
        exact .text s

end Value

/-! ## Lines of a report -/

namespace Store

/-- The line of a variable, if it has one. -/
def line? (σ : Store) (v : Variable) : Option String :=
  if (σ.get v).isZero then none else some (v.name ++ " = " ++ (σ.get v).display)

/-- The lines of a report. -/
def lines (σ : Store) : List String := Variable.all.filterMap σ.line?

theorem report_eq (σ : Store) : σ.report = Text.ofLines σ.lines := by
  rw [report, nonZero, Text.ofLines, lines]
  congr 1
  induction Variable.all with
  | nil => rfl
  | cons v vs ih =>
    cases hzero : (σ.get v).isZero with
    | true => simpa [line?, hzero] using ih
    | false => simpa [line?, hzero, line] using ih

variable {σ τ : Store} {v w : Variable} {d e s : String}

/-- A line begins with the name of its variable, which is one letter. -/
theorem line_inj : v.name ++ " = " ++ d = w.name ++ " = " ++ e ↔ v = w ∧ d = e := by
  constructor
  · intro h
    have hchars : v.letter = w.letter ∧ d = e := by
      simpa [Variable.name, String.toList_inj] using congrArg String.toList h
    exact ⟨Variable.name_inj.1 (congrArg Char.toString hchars.1), hchars.2⟩
  · rintro ⟨rfl, rfl⟩
    rfl

theorem mem_lines_iff : s ∈ σ.lines ↔ ∃ v, σ.line? v = some s := by
  simp [lines, Variable.mem_all]

theorem line?_eq_some_iff : σ.line? v = some s ↔
    (σ.get v).isZero = false ∧ s = v.name ++ " = " ++ (σ.get v).display := by
  unfold line?
  cases (σ.get v).isZero <;> simp [eq_comm]

theorem isLine_of_mem_lines (h : s ∈ σ.lines) : Text.IsLine s := by
  obtain ⟨v, hv⟩ := mem_lines_iff.1 h
  obtain ⟨-, rfl⟩ := line?_eq_some_iff.1 hv
  rw [Text.isLine_append, Text.isLine_append]
  exact ⟨⟨v.isLine_name, by decide⟩, (σ.get v).isLine_display⟩

/-- **The lines of a report tell those of each variable**, whatever stands in them. -/
theorem lines_eq_iff : σ.lines = τ.lines ↔ ∀ v, σ.line? v = τ.line? v := by
  constructor
  · have hline {σ τ : Store} (h : σ.lines = τ.lines) {v s} (hs : σ.line? v = some s) :
        τ.line? v = some s := by
      obtain ⟨w, hw⟩ := mem_lines_iff.1 (h ▸ mem_lines_iff.2 ⟨v, hs⟩ : s ∈ τ.lines)
      have hvs := (line?_eq_some_iff.1 hs).2
      have hws := (line?_eq_some_iff.1 hw).2
      obtain ⟨rfl, -⟩ := line_inj.1 (hvs.symm.trans hws)
      exact hw
    exact fun h v => Option.ext fun s => ⟨hline h, hline h.symm⟩
  · intro h
    rw [lines, lines, funext h]

theorem line?_eq_iff : σ.line? v = τ.line? v ↔ (σ.get v).ShowsAs (τ.get v) := by
  cases hσ : (σ.get v).isZero <;> cases hτ : (τ.get v).isZero
  case true.true => simp [line?, hσ, hτ, Value.showsAs_of_isZero]
  case false.false => simp [line?, hσ, hτ, Value.showsAs_iff_display_eq]
  -- a variable that holds a zero in one store only has a line in the other only
  all_goals
    refine iff_of_false (by simp [line?, hσ, hτ]) fun h => ?_
    have heq := h.isZero_eq
    simp [hσ, hτ] at heq

end Store

/-- **A report identifies the store**, as far as its values can be told apart: two stores have the
same report exactly if each variable holds zeros in both, or other numbers with the same text, or
the same text. A number does not show as a text does, whatever the text is. -/
theorem report_identifies_store (σ τ : Store) :
    (σ.report = τ.report ↔ ∀ v, (σ.get v).ShowsAs (τ.get v)) ∧
      ∀ x s, (Value.number x).display ≠ (Value.text s).display := by
  refine ⟨?_, Value.display_number_ne⟩
  rw [Store.report_eq, Store.report_eq, Text.ofLines_inj (fun _ => Store.isLine_of_mem_lines)
    (fun _ => Store.isLine_of_mem_lines), Store.lines_eq_iff]
  simp only [Store.line?_eq_iff]

end Abecedary
