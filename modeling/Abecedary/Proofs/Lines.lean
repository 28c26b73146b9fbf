import Mathlib.Data.List.Basic
import Mathlib.Tactic.SplitIfs
import Abecedary.Text.Quoted
import Abecedary.Variable

/-!
# Lines

A text can be a line when there is no line break in it (`Text.IsLine`); `Text.ofLines` writes some
lines one below the other, so that they can be found again. The digits of a number and the name of a
variable are lines, and so is every quoted text, whatever is quoted.
-/

namespace Abecedary

namespace Text

/-- Whether a text can be a line. -/
def IsLine (s : String) : Prop := '\n' ∉ s.toList

instance (s : String) : Decidable (IsLine s) := inferInstanceAs (Decidable (¬ _))

/-- Some lines, each with a line break behind it. -/
def ofLines (ls : List String) : String := String.join (ls.map (· ++ "\n"))

variable {s t : String} {ls ms : List String}

@[simp] theorem isLine_append : IsLine (s ++ t) ↔ IsLine s ∧ IsLine t := by
  simp [IsLine]

theorem isLine_ofList {cs : List Char} : IsLine (String.ofList cs) ↔ '\n' ∉ cs := by
  rw [IsLine, String.toList_ofList]

theorem isLine_toString_char {c : Char} : IsLine c.toString ↔ c ≠ '\n' := by
  simp [IsLine, eq_comm]

theorem isLine_intercalate (hs : IsLine s) (hls : ∀ t ∈ ls, IsLine t) :
    IsLine (s.intercalate ls) := by
  induction ls with
  | nil => simp [IsLine]
  | cons t ls ih =>
    rw [List.forall_mem_cons] at hls
    by_cases hnil : ls = []
    · simpa [hnil] using hls.1
    · rw [String.intercalate_cons_of_ne_nil hnil]
      simpa [hs] using And.intro hls.1 (ih hls.2)

@[simp] theorem ofLines_nil : ofLines [] = "" := rfl

@[simp] theorem ofLines_cons : ofLines (s :: ls) = s ++ "\n" ++ ofLines ls := by
  simp [ofLines]

@[simp] theorem ofLines_append : ofLines (ls ++ ms) = ofLines ls ++ ofLines ms := by
  simp [ofLines]

/-- A line ends at the first line break. -/
theorem append_newline_inj {cs ds : List Char} (hs : IsLine s) (ht : IsLine t) :
    s.toList ++ '\n' :: cs = t.toList ++ '\n' :: ds ↔ s = t ∧ cs = ds := by
  constructor
  · intro h
    -- what one of the lines has more than the other would begin with a line break
    obtain ⟨more, hline, hrest⟩ | ⟨more, hline, hrest⟩ := List.append_eq_append_iff.1 h
    all_goals cases more with
    | nil => simpa [eq_comm, ← String.toList_inj] using And.intro hline hrest
    | cons c more =>
      obtain ⟨rfl, -⟩ := List.cons.inj hrest
      simp [IsLine, hline] at hs ht
  · rintro ⟨rfl, rfl⟩
    rfl

/-- The lines of a text are found again. -/
theorem ofLines_inj (hls : ∀ s ∈ ls, IsLine s) (hms : ∀ s ∈ ms, IsLine s) :
    ofLines ls = ofLines ms ↔ ls = ms := by
  constructor
  · intro h
    induction ls generalizing ms with
    | nil =>
      cases ms with
      | nil => rfl
      | cons t ms =>
        have hempty := congrArg String.toList h
        simp at hempty
    | cons s ls ih =>
      cases ms with
      | nil =>
        have hempty := congrArg String.toList h
        simp at hempty
      | cons t ms =>
        rw [List.forall_mem_cons] at hls hms
        have hlines : s.toList ++ '\n' :: (ofLines ls).toList =
            t.toList ++ '\n' :: (ofLines ms).toList := by
          simpa using congrArg String.toList h
        obtain ⟨rfl, hrest⟩ := (append_newline_inj hls.1 hms.1).1 hlines
        rw [ih hls.2 hms.2 (String.toList_inj.1 hrest)]
  · rintro rfl
    rfl

/-! ### Numbers and quoted texts -/

/-- A character that is no digit is not among digits. -/
theorem notMem_toDigits {c : Char} (hc : ∀ d, c ≠ Nat.digitChar d) {b : Nat} (hb : 1 < b)
    (n : Nat) : c ∉ Nat.toDigits b n := by
  induction n using Nat.strongRecOn with
  | ind n ih =>
    rw [Nat.toDigits_eq_if hb]
    split
    · simpa using hc n
    · simpa [hc] using ih (n / b) (Nat.div_lt_self (by omega) hb)

theorem newline_notMem_toDigits {b : Nat} (hb : 1 < b) (n : Nat) : '\n' ∉ Nat.toDigits b n :=
  notMem_toDigits (by simp) hb n

@[simp] theorem isLine_repr_nat (n : Nat) : IsLine n.repr := by
  rw [Nat.repr_eq_ofList_toDigits, isLine_ofList]
  exact newline_notMem_toDigits (by decide) n

@[simp] theorem isLine_repr_int (n : Int) : IsLine n.repr := by
  rw [Int.repr_eq_if]
  split
  · exact isLine_repr_nat _
  · exact isLine_append.2 ⟨by decide, isLine_repr_nat _⟩

theorem newline_notMem_escape (c : Char) : '\n' ∉ escape c := by
  have hnumber : '\n' ∉ byNumber c := by
    simp [byNumber, newline_notMem_toDigits]
  by_cases hc : c = '\n'
  · rw [hc]
    decide
  · unfold escape
    split_ifs <;> simp [hnumber, Ne.symm hc]

@[simp] theorem isLine_quote (s : String) : IsLine (quote s) := by
  rw [quote, isLine_ofList]
  simp [newline_notMem_escape]

end Text

/-! ## Names -/

theorem Variable.name_inj {v w : Variable} : v.name = w.name ↔ v = w := by
  constructor
  · intro h
    have hletter : v.letter = w.letter := by simpa [name] using h
    have hread := congrArg ofLetter? hletter
    simpa using hread
  · rintro rfl
    rfl

theorem Variable.letter_ne_newline (v : Variable) : v.letter ≠ '\n' := by
  have h : ∀ i : Fin 26, letter ⟨i⟩ ≠ '\n' := by decide
  exact h v.index

@[simp] theorem Variable.isLine_name (v : Variable) : Text.IsLine v.name :=
  Text.isLine_toString_char.2 v.letter_ne_newline

end Abecedary
