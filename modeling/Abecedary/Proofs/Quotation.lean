import Abecedary.Proofs.Lines

/-!
# Quoted text is read back

What stands between quotes is read character by character: a backslash begins the form of a
character that is not written as itself, and any other character is meant as it stands
(`Text.unescape`). The form of a character is read as this character whatever follows it
(`Text.unescape_escape`), so different texts have different quoted forms (`Text.quote_inj`).
-/

namespace Abecedary.Text

/-! ## Hexadecimal numbers -/

/-- The value of a hexadecimal digit. -/
def hexValue (c : Char) : Nat :=
  if c.isDigit then c.toNat - '0'.toNat else c.toNat - 'a'.toNat + 10

/-- The number that some hexadecimal digits write. -/
def ofHex (cs : List Char) : Nat := cs.foldl (fun n c => 16 * n + hexValue c) 0

theorem hexValue_digitChar {d : Nat} (hd : d < 16) : hexValue (Nat.digitChar d) = d := by
  have h : ∀ d : Fin 16, hexValue (Nat.digitChar d) = d := by decide
  exact h ⟨d, hd⟩

theorem ofHex_toDigits (n : Nat) : ofHex (Nat.toDigits 16 n) = n := by
  induction n using Nat.strongRecOn with
  | ind n ih =>
    rw [Nat.toDigits_eq_if (by decide)]
    split
    · next hn => simp [ofHex, hexValue_digitChar hn]
    · next hn =>
      have hhead := ih (n / 16) (by omega)
      rw [ofHex, List.foldl_append, ← ofHex, hhead, List.foldl_cons, List.foldl_nil,
        hexValue_digitChar (Nat.mod_lt n (by decide)), Nat.div_add_mod]

/-! ## Characters between quotes -/

/-- The first character that is meant between quotes, and what is written behind it. -/
def unescape : List Char → Option (Char × List Char)
  | [] => none
  | '\\' :: '0' :: cs => some ('\x00', cs)
  | '\\' :: 't' :: cs => some ('\t', cs)
  | '\\' :: 'r' :: cs => some ('\x0d', cs)
  | '\\' :: 'n' :: cs => some ('\n', cs)
  | '\\' :: '\\' :: cs => some ('\\', cs)
  | '\\' :: '"' :: cs => some ('"', cs)
  | '\\' :: 'u' :: '{' :: cs =>
    some (Char.ofNat (ofHex (cs.takeWhile (· ≠ '}'))), (cs.dropWhile (· ≠ '}')).tail)
  | c :: cs => some (c, cs)

@[simp] theorem unescape_nil : unescape [] = none := rfl

theorem unescape_of_ne {c : Char} (hc : c ≠ '\\') (cs : List Char) :
    unescape (c :: cs) = some (c, cs) := by
  rw [unescape] <;> simp [hc]

theorem unescape_byNumber (c : Char) (rest : List Char) :
    unescape (byNumber c ++ rest) = some (c, rest) := by
  have hbrace : '}' ∉ Nat.toDigits 16 c.toNat := notMem_toDigits (by simp) (by decide) c.toNat
  have hdigits : ∀ d ∈ Nat.toDigits 16 c.toNat, decide (d ≠ '}') = true :=
    fun d hd => decide_eq_true fun h => hbrace (h ▸ hd)
  have hform : byNumber c ++ rest =
      '\\' :: 'u' :: '{' :: (Nat.toDigits 16 c.toNat ++ '}' :: rest) := by
    simp [byNumber]
  rw [hform, unescape, List.takeWhile_append_of_pos hdigits, List.dropWhile_append_of_pos hdigits]
  simp [ofHex_toDigits]

/-- **The form of a character is read as this character**, whatever is written behind it. -/
theorem unescape_escape (c : Char) (rest : List Char) :
    unescape (escape c ++ rest) = some (c, rest) := by
  unfold escape
  split_ifs with hnul htab hreturn hnewline hbackslash hquote
  · rw [hnul]
    rfl
  · rw [htab]
    rfl
  · rw [hreturn]
    rfl
  · rw [hnewline]
    rfl
  · rw [hbackslash]
    rfl
  · rw [hquote]
    rfl
  · exact unescape_of_ne hbackslash rest
  · exact unescape_byNumber c rest

/-! ## Texts -/

theorem flatMap_escape_inj {cs ds : List Char} (h : cs.flatMap escape = ds.flatMap escape) :
    cs = ds := by
  induction cs generalizing ds with
  | nil =>
    cases ds with
    | nil => rfl
    | cons d ds =>
      have hread := congrArg unescape h
      simp [unescape_escape] at hread
  | cons c cs ih =>
    have hread := congrArg unescape h
    cases ds with
    | nil => simp [unescape_escape] at hread
    | cons d ds =>
      simp only [List.flatMap_cons, unescape_escape, Option.some.injEq, Prod.mk.injEq] at hread
      obtain ⟨rfl, hrest⟩ := hread
      rw [ih hrest]

/-- **Different texts have different quoted forms.** -/
@[simp] theorem quote_inj {s t : String} : quote s = quote t ↔ s = t := by
  constructor
  · intro h
    rw [quote, quote, String.ofList_inj, List.cons.injEq, List.append_cancel_right_eq] at h
    exact String.toList_inj.1 (flatMap_escape_inj h.2)
  · rintro rfl
    rfl

end Abecedary.Text
