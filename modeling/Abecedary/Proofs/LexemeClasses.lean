import Abecedary.Proofs.Spelling

/-!
# The classes of lexemes

`k.Covers before cs rest` says that in the text `before ++ cs ++ rest` the middle part is a lexeme
of the kind `k`: a mark, the whole run of letters or of digits that lies there, or a text with its
two quotes. `d.Refuses before rest` says what is wrong at a place where no lexeme lies. Neither says
how lexemes are found. Where no run has been broken off, `Lexeme.first` finds the only lexeme there
is (`Lexeme.first_meets`, `Lexeme.first_of_covers`), or refuses the place for the only reason there
is (`Lexeme.meaning_of_refuses`).
-/

namespace Abecedary

/-- Some characters of a class that lie in a text as a whole run of them. -/
structure IsRun (p : Char → Bool) (before cs rest : List Char) : Prop where
  ne_nil : cs ≠ []
  all : ∀ c ∈ cs, p c = true
  starts : ∀ c ∈ before.getLast?, p c = false
  ends : ∀ c ∈ rest.head?, p c = false

/-- Whether some characters of a text are a lexeme of the kind. In a word upper and lower case are
the same, and a number may have zeros in front. -/
def TokenKind.Covers (k : TokenKind) (before cs rest : List Char) : Prop :=
  match k with
  | mark m => cs = [m.symbol]
  | keyword k => IsRun Char.isAlpha before cs rest ∧ cs.map Char.toLower = k.spelling.toList
  | letter v => IsRun Char.isAlpha before cs rest ∧ cs.map Char.toLower = [v.letter]
  | number n => IsRun Char.isDigit before cs rest ∧ (Nat.ofDigitChars 10 cs 0 : Int) = n.toInt
  | text s => '"' ∉ s.toList ∧ cs = '"' :: (s.toList ++ ['"'])
  | eof => False

/-- Whether a defect is what is wrong at a place in a text. -/
def LexDefect.Refuses (d : LexDefect) (before rest : List Char) : Prop :=
  match d with
  | strayCharacter c =>
    rest.head? = some c ∧ Text.isBlank c = false ∧ (∀ m : Mark, m.symbol ≠ c) ∧ c ≠ '"' ∧
      c.isAlpha = false ∧ c.isDigit = false
  | unknownWord word =>
    ∃ cs post, rest = cs ++ post ∧ IsRun Char.isAlpha before cs post ∧
      word = String.ofList (cs.map Char.toLower) ∧ (∀ k : Keyword, word ≠ k.spelling) ∧
      cs.length ≠ 1
  | numberTooLarge digits =>
    ∃ cs post, rest = cs ++ post ∧ IsRun Char.isDigit before cs post ∧
      digits = String.ofList cs ∧ Int64.maxValue.toInt < (Nat.ofDigitChars 10 cs 0 : Int)
  | unclosedText => ∃ cs, rest = '"' :: cs ∧ '"' ∉ cs
  | badEncoding => False

/-- Whether no run of letters and no run of digits goes on from one part of a text to the next. -/
def Apart (before rest : List Char) : Prop :=
  ∀ c ∈ before.getLast?, ∀ d ∈ rest.head?,
    (d.isAlpha = true → c.isAlpha = false) ∧ (d.isDigit = true → c.isDigit = false)

/-! ## Characters -/

namespace Text

theorem isAlpha_iff {c : Char} :
    c.isAlpha = true ↔ (65 ≤ c.toNat ∧ c.toNat ≤ 90) ∨ (97 ≤ c.toNat ∧ c.toNat ≤ 122) := by
  show (decide (c.val ≥ 65 ∧ c.val ≤ 90) ||
    (decide (c.val ≥ 97) && decide (c.val ≤ 122))) = true ↔ _
  simp only [Bool.or_eq_true, Bool.and_eq_true, decide_eq_true_eq, UInt32.le_iff_toNat_le,
    ge_iff_le]
  rfl

theorem isBlank_eq_false_of_word {c : Char} (h : c.isAlpha = true ∨ c.isDigit = true) :
    isBlank c = false := by
  have hrange : 48 ≤ c.toNat ∧ c.toNat ≤ 57 ∨ 65 ≤ c.toNat ∧ c.toNat ≤ 90 ∨
      97 ≤ c.toNat ∧ c.toNat ≤ 122 := by
    rcases h with h | h
    · exact .inr (isAlpha_iff.1 h)
    · exact .inl (Char.isDigit_iff_toNat.1 h)
  simp [isBlank]
  omega

theorem not_word_of_isBlank {c : Char} (h : isBlank c = true) :
    c.isAlpha = false ∧ c.isDigit = false := by
  constructor
  · cases hc : c.isAlpha with
    | false => rfl
    | true => simp [isBlank_eq_false_of_word (.inl hc)] at h
  · cases hc : c.isDigit with
    | false => rfl
    | true => simp [isBlank_eq_false_of_word (.inr hc)] at h

/-- Every letter is the name of a variable, in one case or the other. -/
theorem exists_letter {c : Char} (h : c.isAlpha = true) : ∃ v : Variable, c.toLower = v.letter := by
  have hboth : ∀ i : Fin 26, (Char.ofNat (65 + i)).toLower = Variable.letter ⟨i⟩ ∧
      (Char.ofNat (97 + i)).toLower = Variable.letter ⟨i⟩ := by decide
  rcases isAlpha_iff.1 h with hc | hc
  · refine ⟨⟨⟨c.toNat - 65, by omega⟩⟩, ?_⟩
    rw [← (hboth _).1, Nat.add_sub_cancel' hc.1, Char.ofNat_toNat]
  · refine ⟨⟨⟨c.toNat - 97, by omega⟩⟩, ?_⟩
    rw [← (hboth _).2, Nat.add_sub_cancel' hc.1, Char.ofNat_toNat]

end Text

theorem Lexeme.isDigit_of_isAlpha {c : Char} (h : c.isAlpha = true) : c.isDigit = false := by
  cases hc : c.isDigit with
  | false => rfl
  | true => simp [isAlpha_of_isDigit hc] at h

/-! ## Runs -/

namespace IsRun

variable {p : Char → Bool} {before cs rest : List Char}

theorem exists_cons (h : IsRun p before cs rest) : ∃ c ds, cs = c :: ds ∧ p c = true := by
  obtain ⟨c, ds, rfl⟩ := List.exists_cons_of_ne_nil h.ne_nil
  exact ⟨c, ds, rfl, h.all c List.mem_cons_self⟩

/-- The run at the head of a text. -/
theorem takeWhile {c : Char} (hc : p c = true) (hstarts : ∀ b ∈ before.getLast?, p b = false) :
    IsRun p before (c :: rest.takeWhile p) (rest.dropWhile p) where
  ne_nil := List.cons_ne_nil _ _
  all := by
    rw [List.forall_mem_cons]
    exact ⟨hc, List.all_eq_true.1 List.all_takeWhile⟩
  starts := hstarts
  ends d hd := by
    simpa [Option.mem_def.1 hd] using List.head?_dropWhile_not p rest

theorem first_of_letters (h : IsRun Char.isAlpha before cs rest) :
    Lexeme.first (cs ++ rest) = ⟨Lexeme.ofWord cs, cs, rest⟩ := by
  obtain ⟨c, ds, rfl, hc⟩ := h.exists_cons
  exact Lexeme.first_word hc (fun d hd => h.all d (List.mem_cons_of_mem c hd)) h.ends

theorem first_of_digits (h : IsRun Char.isDigit before cs rest) :
    Lexeme.first (cs ++ rest) = ⟨Lexeme.ofDigits cs, cs, rest⟩ := by
  obtain ⟨c, ds, rfl, hc⟩ := h.exists_cons
  exact Lexeme.first_digits hc (fun d hd => h.all d (List.mem_cons_of_mem c hd)) h.ends

end IsRun

/-! ## What a run means -/

namespace Lexeme

variable {cs : List Char}

theorem ofWord_congr {ds : List Char} (h : cs.map Char.toLower = ds.map Char.toLower) :
    ofWord cs = ofWord ds := by
  simp only [ofWord, h]

theorem ofWord_eq_keyword {k : Keyword} (h : cs.map Char.toLower = k.spelling.toList) :
    ofWord cs = .ok (.keyword k) := by
  have hlower : k.spelling.toList.map Char.toLower = k.spelling.toList := by cases k <;> rfl
  rw [← ofWord_keyword k]
  exact ofWord_congr (h.trans hlower.symm)

theorem ofWord_eq_letter {v : Variable} (h : cs.map Char.toLower = [v.letter]) :
    ofWord cs = .ok (.letter v) := by
  rw [← ofWord_letter v]
  exact ofWord_congr (by rw [h, List.map_singleton, toLower_letter])

theorem ofWord_eq_unknown (hk : ∀ k : Keyword, String.ofList (cs.map Char.toLower) ≠ k.spelling)
    (hlength : cs.length ≠ 1) :
    ofWord cs = .error (.unknownWord (String.ofList (cs.map Char.toLower))) := by
  have hnone : Keyword.ofWord? (String.ofList (cs.map Char.toLower)) = none :=
    List.find?_eq_none.2 fun k _ => by simpa using (hk k).symm
  rw [← List.length_map Char.toLower] at hlength
  simp only [ofWord, hnone]
  split
  · next hword => simp [hword] at hlength
  · rfl

theorem ofDigits_eq_tooLarge (h : Int64.maxValue.toInt < (Nat.ofDigitChars 10 cs 0 : Int)) :
    ofDigits cs = .error (.numberTooLarge (String.ofList cs)) := by
  have hlarge : ¬ Nat.ofDigitChars 10 cs 0 < 1 <<< 63 := by
    have hmax : Int64.maxValue.toInt = 9223372036854775807 := rfl
    rw [Nat.shiftLeft_eq, Nat.one_mul]
    omega
  simp only [ofDigits, if_neg hlarge]

/-- What is read at a place meets it if it is a lexeme of the kind that is found, or the place is
wrong in the way that is found. -/
def Meets (before rest : List Char) (l : Lexeme) : Prop :=
  match l.meaning with
  | .ok k => k.Covers before l.chars l.rest
  | .error d => d.Refuses before rest

variable {before rest : List Char}

theorem meets_word (h : IsRun Char.isAlpha before cs rest) :
    Meets before (cs ++ rest) ⟨ofWord cs, cs, rest⟩ := by
  by_cases hk : ∃ k : Keyword, String.ofList (cs.map Char.toLower) = k.spelling
  · obtain ⟨k, hk⟩ := hk
    have hk : cs.map Char.toLower = k.spelling.toList := by rw [← hk, String.toList_ofList]
    rw [ofWord_eq_keyword hk]
    exact ⟨h, hk⟩
  · by_cases hlength : cs.length = 1
    · obtain ⟨c, rfl⟩ := List.length_eq_one_iff.1 hlength
      obtain ⟨v, hv⟩ := Text.exists_letter (h.all c List.mem_cons_self)
      have hv : [c].map Char.toLower = [v.letter] := by rw [List.map_singleton, hv]
      rw [ofWord_eq_letter hv]
      exact ⟨h, hv⟩
    · have hk := not_exists.1 hk
      rw [ofWord_eq_unknown hk hlength]
      exact ⟨cs, rest, rfl, h, rfl, hk, hlength⟩

theorem meets_digits (h : IsRun Char.isDigit before cs rest) :
    Meets before (cs ++ rest) ⟨ofDigits cs, cs, rest⟩ := by
  have hmax : Int64.maxValue.toInt = 9223372036854775807 := rfl
  by_cases hlarge : Int64.maxValue.toInt < (Nat.ofDigitChars 10 cs 0 : Int)
  · rw [ofDigits_eq_tooLarge hlarge]
    exact ⟨cs, rest, rfl, h, rfl, hlarge⟩
  · have hvalue : (Nat.ofDigitChars 10 cs 0 : Int) =
        (Int64.ofNat (Nat.ofDigitChars 10 cs 0)).toInt :=
      (Int64.toInt_ofNat_of_lt (by omega)).symm
    rw [ofDigits_eq_number hvalue]
    exact ⟨h, hvalue⟩

theorem meets_quoted (cs : List Char) : Meets before ('"' :: cs) (quoted cs) := by
  have hbody := quote_notMem_takeWhile cs
  have hsplit := List.takeWhile_append_dropWhile (p := fun c : Char => decide (c ≠ '"')) (l := cs)
  unfold quoted
  cases hrest : cs.dropWhile (· ≠ '"') with
  | nil =>
    rw [hrest, List.append_nil] at hsplit
    exact ⟨cs, rfl, hsplit ▸ hbody⟩
  | cons close rest =>
    have hclose := List.head?_dropWhile_not (fun c : Char => decide (c ≠ '"')) cs
    rw [hrest] at hclose
    obtain rfl : close = '"' := by simpa using hclose
    exact ⟨by simpa using hbody, by simp⟩

/-- **What lies at a place is read for what it is**, a lexeme or a place where none lies. -/
theorem first_meets (hne : rest ≠ []) (hblank : ∀ c ∈ rest.head?, Text.isBlank c = false)
    (hapart : Apart before rest) : Meets before rest (first rest) := by
  obtain ⟨c, cs, rfl⟩ := List.exists_cons_of_ne_nil hne
  cases hm : Mark.ofChar? c with
  | some m =>
    simp only [first, hm]
    exact congrArg (· :: []) (Mark.symbol_of_ofChar? hm).symm
  | none =>
    by_cases hquote : c = '"'
    · subst hquote
      simp only [first, hm, if_true]
      exact meets_quoted cs
    by_cases halpha : c.isAlpha = true
    · have hrun : IsRun Char.isAlpha before (c :: cs.takeWhile Char.isAlpha)
          (cs.dropWhile Char.isAlpha) :=
        .takeWhile halpha fun b hb => (hapart b hb c rfl).1 halpha
      simpa [first, hm, hquote, halpha] using meets_word hrun
    by_cases hdigit : c.isDigit = true
    · have hrun : IsRun Char.isDigit before (c :: cs.takeWhile Char.isDigit)
          (cs.dropWhile Char.isDigit) :=
        .takeWhile hdigit fun b hb => (hapart b hb c rfl).2 hdigit
      simpa [first, hm, hquote, halpha, hdigit] using meets_digits hrun
    · simp only [first, hm, hquote, halpha, hdigit]
      have hmark (m : Mark) : m.symbol ≠ c := by
        rintro rfl
        simp [Mark.ofChar?_symbol] at hm
      exact ⟨rfl, hblank c rfl, hmark, hquote, by simpa using halpha, by simpa using hdigit⟩

theorem covers_or_refuses (hne : rest ≠ []) (hblank : ∀ c ∈ rest.head?, Text.isBlank c = false)
    (hapart : Apart before rest) :
    (∃ k cs post, rest = cs ++ post ∧ TokenKind.Covers k before cs post) ∨
      ∃ d, LexDefect.Refuses d before rest := by
  have hmeets := first_meets hne hblank hapart
  unfold Meets at hmeets
  split at hmeets
  · exact .inl ⟨_, _, _, (first_split rest).symm, hmeets⟩
  · exact .inr ⟨_, hmeets⟩

/-- **A lexeme is read as what it is**, up to its end. -/
theorem first_of_covers {k : TokenKind} (h : k.Covers before cs rest) :
    first (cs ++ rest) = ⟨.ok k, cs, rest⟩ := by
  cases k with
  | mark m =>
    obtain rfl : cs = [m.symbol] := h
    simp [first, Mark.ofChar?_symbol]
  | keyword k => rw [h.1.first_of_letters, ofWord_eq_keyword h.2]
  | letter v => rw [h.1.first_of_letters, ofWord_eq_letter h.2]
  | number n => rw [h.1.first_of_digits, ofDigits_eq_number h.2]
  | text s =>
    obtain ⟨hs, rfl⟩ := h
    rw [first_quoted rest hs, String.ofList_toList]
  | eof => exact h.elim

/-- A quote that is never closed takes up everything. -/
theorem first_unclosed (hcs : '"' ∉ cs) :
    first ('"' :: cs) = ⟨.error .unclosedText, '"' :: cs, []⟩ := by
  have hmark : Mark.ofChar? '"' = none := rfl
  have hend : ∀ c ∈ ([] : List Char).head?, decide (c ≠ '"') = false := by simp
  have hsplit := takeWhile_append_eq (ne_quote_of_notMem hcs) hend
  rw [List.append_nil] at hsplit
  simp only [first, hmark, if_true, quoted, hsplit]

/-- A place where no lexeme lies is refused. -/
theorem meaning_of_refuses {d : LexDefect} (h : d.Refuses before rest) :
    (first rest).meaning = .error d := by
  cases d with
  | strayCharacter c =>
    obtain ⟨hhead, -, hmark, hquote, halpha, hdigit⟩ := h
    obtain ⟨cs, rfl⟩ := List.head?_eq_some_iff.1 hhead
    have hnone : Mark.ofChar? c = none := List.find?_eq_none.2 fun m _ => by simpa using hmark m
    simp [first, hnone, hquote, halpha, hdigit]
  | unknownWord word =>
    obtain ⟨cs, post, rfl, hrun, rfl, hk, hlength⟩ := h
    rw [hrun.first_of_letters, ofWord_eq_unknown hk hlength]
  | numberTooLarge digits =>
    obtain ⟨cs, post, rfl, hrun, rfl, hlarge⟩ := h
    rw [hrun.first_of_digits, ofDigits_eq_tooLarge hlarge]
  | unclosedText =>
    obtain ⟨cs, rfl, hcs⟩ := h
    rw [first_unclosed hcs]
  | badEncoding => exact h.elim

end Lexeme

namespace LexDefect.Refuses

variable {d : LexDefect} {before rest : List Char}

/-- **No lexeme lies where a place is refused.** -/
theorem not_covers {cs post : List Char} {k : TokenKind} (h : d.Refuses before (cs ++ post)) :
    ¬ k.Covers before cs post := by
  intro hk
  have hmeaning := Lexeme.meaning_of_refuses h
  rw [Lexeme.first_of_covers hk] at hmeaning
  cases hmeaning

/-- A place that is refused is at a character that is no blank. -/
theorem exists_cons (h : d.Refuses before rest) :
    ∃ c cs, rest = c :: cs ∧ Text.isBlank c = false := by
  cases d with
  | strayCharacter c =>
    obtain ⟨cs, rfl⟩ := List.head?_eq_some_iff.1 h.1
    exact ⟨c, cs, rfl, h.2.1⟩
  | unknownWord word =>
    obtain ⟨cs, post, rfl, hrun, -⟩ := h
    obtain ⟨c, ds, rfl, hc⟩ := hrun.exists_cons
    exact ⟨c, ds ++ post, rfl, Text.isBlank_eq_false_of_word (.inl hc)⟩
  | numberTooLarge digits =>
    obtain ⟨cs, post, rfl, hrun, -⟩ := h
    obtain ⟨c, ds, rfl, hc⟩ := hrun.exists_cons
    exact ⟨c, ds ++ post, rfl, Text.isBlank_eq_false_of_word (.inr hc)⟩
  | unclosedText =>
    obtain ⟨cs, rfl, -⟩ := h
    exact ⟨'"', cs, rfl, rfl⟩
  | badEncoding => exact h.elim

end LexDefect.Refuses

/-! ## Where runs end -/

namespace IsRun

variable {p : Char → Bool} {before cs rest : List Char}

theorem of_mem_getLast? (h : IsRun p before cs rest) {c : Char}
    (hc : c ∈ (before ++ cs).getLast?) : p c = true := by
  obtain ⟨d, ds, rfl, -⟩ := h.exists_cons
  exact h.all c (List.mem_of_getLast? (by simpa [List.getLast?_append] using hc))

/-- Behind letters no letters go on, and no digits. -/
theorem apart_of_letters (h : IsRun Char.isAlpha before cs rest) : Apart (before ++ cs) rest := by
  intro c hc d hd
  refine ⟨fun hd' => ?_, fun _ => Lexeme.isDigit_of_isAlpha (h.of_mem_getLast? hc)⟩
  simp [h.ends d hd] at hd'

/-- Behind digits no digits go on, and no letters. -/
theorem apart_of_digits (h : IsRun Char.isDigit before cs rest) : Apart (before ++ cs) rest := by
  intro c hc d hd
  refine ⟨fun _ => Lexeme.isAlpha_of_isDigit (h.of_mem_getLast? hc), fun hd' => ?_⟩
  simp [h.ends d hd] at hd'

end IsRun

namespace TokenKind.Covers

variable {k : TokenKind} {before cs rest : List Char}

theorem ne_eof (h : k.Covers before cs rest) : k ≠ .eof := by
  rintro rfl
  exact h

/-- A lexeme begins with a character that is no blank. -/
theorem exists_cons (h : k.Covers before cs rest) :
    ∃ c ds, cs = c :: ds ∧ Text.isBlank c = false := by
  cases k with
  | mark m => exact ⟨m.symbol, [], h, by cases m <;> rfl⟩
  | keyword k =>
    obtain ⟨c, ds, hcs, hc⟩ := h.1.exists_cons
    exact ⟨c, ds, hcs, Text.isBlank_eq_false_of_word (.inl hc)⟩
  | letter v =>
    obtain ⟨c, ds, hcs, hc⟩ := h.1.exists_cons
    exact ⟨c, ds, hcs, Text.isBlank_eq_false_of_word (.inl hc)⟩
  | number n =>
    obtain ⟨c, ds, hcs, hc⟩ := h.1.exists_cons
    exact ⟨c, ds, hcs, Text.isBlank_eq_false_of_word (.inr hc)⟩
  | text s => exact ⟨'"', s.toList ++ ['"'], h.2, rfl⟩
  | eof => exact h.elim

/-- No run is broken off behind a lexeme. -/
theorem apart (h : k.Covers before cs rest) : Apart (before ++ cs) rest := by
  cases k with
  | mark m =>
    obtain rfl : cs = [m.symbol] := h
    intro c hc d _
    obtain rfl : m.symbol = c := by simpa using hc
    exact ⟨fun _ => m.symbol_not_word.1, fun _ => m.symbol_not_word.2⟩
  | keyword k => exact h.1.apart_of_letters
  | letter v => exact h.1.apart_of_letters
  | number n => exact h.1.apart_of_digits
  | text s =>
    obtain ⟨-, rfl⟩ := h
    intro c hc d _
    obtain rfl : '"' = c := by simpa [List.getLast?_append, List.getLast?_cons] using hc
    exact ⟨fun _ => rfl, fun _ => rfl⟩
  | eof => exact h.elim

end TokenKind.Covers

/-- No run goes on behind blanks. -/
theorem Apart.blanks {before blanks rest : List Char} (h : Apart before (blanks ++ rest))
    (hblanks : ∀ c ∈ blanks, Text.isBlank c = true) : Apart (before ++ blanks) rest := by
  cases hlast : blanks.getLast? with
  | none =>
    obtain rfl := List.getLast?_eq_none_iff.1 hlast
    simpa using h
  | some b =>
    intro c hc d _
    obtain rfl : b = c := by simpa [List.getLast?_append, hlast] using hc
    have hword := Text.not_word_of_isBlank (hblanks b (List.mem_of_getLast? hlast))
    exact ⟨fun _ => hword.1, fun _ => hword.2⟩

end Abecedary
