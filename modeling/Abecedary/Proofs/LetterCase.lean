import Mathlib
import Abecedary.Backend
import Abecedary.Proofs.Resumption

/-!
# Letter case outside of quotes

`Text.recase` switches the case of some letters of a text, but only of such as an even number of
quotes stands before. The lexer does not notice: from two places that differ in no more than that
(`Lexer.Recased`) a call gives the same result and leads to two such places (`Lexer.Recased.next`).
So all results on both texts are the same, and with them what the texts are parsed as
(`letter_case_is_irrelevant`). The other letters stand between quotes, where they are kept as they
are.
-/

namespace Abecedary

namespace Text

/-- A letter in the other case; any other character as it is. -/
def switchCase (c : Char) : Char := if c.isUpper then c.toLower else c.toUpper

/-- The text with the case of the letters at some places switched, as far as an even number of
quotes stands before them. -/
def recase (chosen : Nat → Bool) (s : String) : String :=
  String.ofList <| s.toList.mapIdx fun i c =>
    if chosen i ∧ (s.toList.take i).count '"' % 2 = 0 then switchCase c else c

/-- Two texts that differ only in the case of letters outside of quotes, where both begin between
quotes or both do not. -/
inductive Recased : (quoted : Bool) → List Char → List Char → Prop
  | nil (quoted : Bool) : Recased quoted [] []
  | outside {c d : Char} {cs ds : List Char} (hcd : c.toLower = d.toLower)
    (h : Recased (c == '"') cs ds) : Recased false (c :: cs) (d :: ds)
  | inside {c : Char} {cs ds : List Char} (h : Recased (c != '"') cs ds) :
    Recased true (c :: cs) (c :: ds)

/-! ## Upper and lower case -/

theorem toLower_switchCase (c : Char) : (switchCase c).toLower = c.toLower := by
  unfold switchCase
  split
  · exact Char.toLower_toLower_eq_toLower c
  · exact Char.toLower_toUpper_eq_toLower c

section Case

variable {c d : Char} {cs ds : List Char}

theorem isAlpha_eq_of_toLower_eq (h : c.toLower = d.toLower) : c.isAlpha = d.isAlpha := by
  rw [← Char.isAlpha_toLower_eq_isAlpha, h, Char.isAlpha_toLower_eq_isAlpha]

/-- Characters that are no letters have no case. -/
theorem eq_of_toLower_eq (h : c.toLower = d.toLower) (hc : c.isAlpha = false) : c = d := by
  have hd : d.isAlpha = false := isAlpha_eq_of_toLower_eq h ▸ hc
  simp only [Char.isAlpha, Bool.or_eq_false_iff] at hc hd
  rwa [Char.toLower_eq_of_not_isUpper (by simp [hc]),
    Char.toLower_eq_of_not_isUpper (by simp [hd])] at h

/-- What is the same for all letters does not depend on the case. -/
theorem congr_of_toLower_eq {α : Type} {f : Char → α} {a : α} (hf : ∀ c, c.isAlpha = true → f c = a)
    (h : c.toLower = d.toLower) : f c = f d := by
  cases hc : c.isAlpha with
  | true => rw [hf c hc, hf d (isAlpha_eq_of_toLower_eq h ▸ hc)]
  | false => rw [eq_of_toLower_eq h hc]

theorem eq_of_map_toLower_eq (h : cs.map Char.toLower = ds.map Char.toLower)
    (hcs : ∀ c ∈ cs, c.isAlpha = false) : cs = ds := by
  induction cs generalizing ds with
  | nil => simpa [eq_comm] using h
  | cons c cs ih =>
    rw [List.forall_mem_cons] at hcs
    cases ds with
    | nil => simp at h
    | cons d ds =>
      obtain ⟨hcd, h⟩ := List.cons.inj h
      rw [eq_of_toLower_eq hcd hcs.1, ih h hcs.2]

theorem foldl_congr_of_map_toLower_eq {α : Type} {f : α → Char → α} {g : α → α}
    (hf : ∀ a c, c.isAlpha = true → f a c = g a)
    (h : cs.map Char.toLower = ds.map Char.toLower) (a : α) : cs.foldl f a = ds.foldl f a := by
  induction cs generalizing ds a with
  | nil =>
    obtain rfl : ds = [] := by simpa [eq_comm] using h
    rfl
  | cons c cs ih =>
    cases ds with
    | nil => simp at h
    | cons d ds =>
      obtain ⟨hcd, h⟩ := List.cons.inj h
      rw [List.foldl_cons, List.foldl_cons, congr_of_toLower_eq (hf a) hcd, ih h]

end Case

/-! ## Texts that differ in case -/

namespace Recased

variable {p : Char → Bool} {cs ds : List Char}

/-- A run of a class in which case makes no difference ends at the same place in both texts. -/
theorem split (hp : ∀ c d : Char, c.toLower = d.toLower → p c = p d) (hquote : p '"' = false)
    (h : Recased false cs ds) :
    (cs.takeWhile p).map Char.toLower = (ds.takeWhile p).map Char.toLower ∧
      Recased false (cs.dropWhile p) (ds.dropWhile p) := by
  generalize hq : false = quoted at h
  induction h with
  | nil => exact ⟨rfl, .nil _⟩
  | @outside c d cs ds hcd h ih =>
    have hpd := hp c d hcd
    cases hpc : p c with
    | true =>
      have hne : (c == '"') = false := by
        rw [beq_eq_false_iff_ne]
        rintro rfl
        simp [hquote] at hpc
      obtain ⟨htake, hdrop⟩ := ih hne.symm
      rw [hne] at hdrop
      simp [← hpd, hpc, hcd, htake, hdrop]
    | false =>
      simp only [List.takeWhile_cons, List.dropWhile_cons, ← hpd, hpc]
      exact ⟨rfl, .outside hcd h⟩
  | inside => cases hq

/-- Between quotes the texts are the same, up to a quote that both have or to the end of both. -/
theorem exists_body (h : Recased true cs ds) :
    ∃ body, '"' ∉ body ∧ (cs = body ∧ ds = body ∨ ∃ cs' ds', cs = body ++ '"' :: cs' ∧
      ds = body ++ '"' :: ds' ∧ Recased false cs' ds') := by
  generalize hq : true = quoted at h
  induction h with
  | nil => exact ⟨[], by simp, .inl ⟨rfl, rfl⟩⟩
  | outside => cases hq
  | @inside c cs ds h ih =>
    by_cases hc : c = '"'
    · subst hc
      exact ⟨[], by simp, .inr ⟨cs, ds, rfl, rfl, h⟩⟩
    · have hne : (c != '"') = true := by simpa using hc
      obtain ⟨body, hbody, hsame⟩ := ih hne.symm
      refine ⟨c :: body, by simp [hbody, Ne.symm hc], ?_⟩
      obtain ⟨rfl, rfl⟩ | ⟨cs', ds', rfl, rfl, hrest⟩ := hsame
      · exact .inl ⟨rfl, rfl⟩
      · exact .inr ⟨cs', ds', rfl, rfl, hrest⟩

end Recased

/-- The text from a place on at which it is between quotes or not. -/
theorem recased_mapIdx (chosen : Nat → Bool) (quoted : Bool) (cs : List Char) :
    Recased quoted cs (cs.mapIdx fun i c =>
      if chosen i ∧ ((cs.take i).count '"' + quoted.toNat) % 2 = 0 then switchCase c else c) := by
  induction cs generalizing chosen quoted with
  | nil => exact .nil quoted
  | cons c cs ih =>
    have hparity (n : Nat) : (n + (if c == '"' then 1 else 0) + quoted.toNat) % 2 =
        (n + (quoted ^^ (c == '"')).toNat) % 2 := by
      cases quoted <;> cases c == '"' <;> simp
      omega
    have hrest := ih (fun i => chosen (i + 1)) (quoted ^^ (c == '"'))
    simp only [List.mapIdx_cons, List.take_succ_cons, List.count_cons, hparity]
    cases quoted with
    | false =>
      refine .outside ?_ (by simpa using hrest)
      split
      · exact (toLower_switchCase c).symm
      · rfl
    | true => simpa using Recased.inside (by simpa [bne] using hrest)

/-- **Switching the case of letters outside of quotes** changes nothing else. -/
theorem recased_recase (chosen : Nat → Bool) (s : String) :
    Recased false s.toList (recase chosen s).toList := by
  rw [recase, String.toList_ofList]
  exact recased_mapIdx chosen false s.toList

end Text

/-! ## Lexemes -/

/-- Two lexemes that differ only in case, and what follows them as well. -/
structure Lexeme.Recased (x y : Lexeme) : Prop where
  meaning : x.meaning = y.meaning
  chars : x.chars.map Char.toLower = y.chars.map Char.toLower
  rest : Text.Recased false x.rest y.rest

namespace Lexeme

variable {cs ds : List Char}

theorem recased_quoted (h : Text.Recased true cs ds) :
    Recased (first ('"' :: cs)) (first ('"' :: ds)) := by
  obtain ⟨body, hbody, ⟨rfl, rfl⟩ | ⟨cs', ds', rfl, rfl, hrest⟩⟩ := h.exists_body
  · rw [first_unclosed hbody]
    exact ⟨rfl, rfl, .nil _⟩
  · have hfirst (rest : List Char) : first ('"' :: (body ++ '"' :: rest)) =
        ⟨.ok (.text (String.ofList body)), '"' :: (body ++ ['"']), rest⟩ := by
      simpa using first_quoted rest hbody
    rw [hfirst, hfirst]
    exact ⟨rfl, rfl, hrest⟩

theorem recased_word {c d : Char} (hcd : c.toLower = d.toLower) (hc : c.isAlpha = true)
    (h : Text.Recased false cs ds) : Recased (first (c :: cs)) (first (d :: ds)) := by
  have hd : d.isAlpha = true := Text.isAlpha_eq_of_toLower_eq hcd ▸ hc
  obtain ⟨htake, hdrop⟩ := h.split (fun _ _ => Text.isAlpha_eq_of_toLower_eq) rfl
  have hword : (c :: cs.takeWhile Char.isAlpha).map Char.toLower =
      (d :: ds.takeWhile Char.isAlpha).map Char.toLower := by
    simp [hcd, htake]
  rw [first_of_isAlpha hc, first_of_isAlpha hd]
  exact ⟨ofWord_congr hword, hword, hdrop⟩

theorem recased_digits {c : Char} (hc : c.isDigit = true) (h : Text.Recased false cs ds) :
    Recased (first (c :: cs)) (first (c :: ds)) := by
  have hdigits : ∀ c d : Char, c.toLower = d.toLower → c.isDigit = d.isDigit :=
    fun _ _ => Text.congr_of_toLower_eq fun _ => isDigit_of_isAlpha
  obtain ⟨htake, hdrop⟩ := h.split hdigits rfl
  have hsame := Text.eq_of_map_toLower_eq htake fun c hc =>
    isAlpha_of_isDigit (List.all_eq_true.1 List.all_takeWhile c hc)
  rw [first_of_isDigit hc, first_of_isDigit hc, hsame]
  exact ⟨rfl, rfl, hdrop⟩

/-- **The lexemes of two texts that differ only in case** differ only in case, and mean the same. -/
theorem recased_first (h : Text.Recased false cs ds) : Recased (first cs) (first ds) := by
  cases h with
  | nil => exact ⟨rfl, rfl, .nil _⟩
  | @outside c d cs ds hcd h =>
    cases hc : c.isAlpha with
    | true =>
      rw [beq_eq_false_iff_ne.2 (ne_quote_of_word (.inl hc))] at h
      exact recased_word hcd hc h
    | false =>
      obtain rfl := Text.eq_of_toLower_eq hcd hc
      by_cases hquote : c = '"'
      · subst hquote
        exact recased_quoted h
      have hne : (c == '"') = false := by simpa using hquote
      rw [hne] at h
      cases hd : c.isDigit with
      | true => exact recased_digits hd h
      | false =>
        cases hm : Mark.ofChar? c with
        | some m =>
          simp only [first, hm]
          exact ⟨rfl, rfl, h⟩
        | none =>
          simp only [first, hm, hquote, hc, hd]
          exact ⟨rfl, rfl, .outside hcd (hne ▸ h)⟩

end Lexeme

/-! ## Places and calls -/

namespace Lexer

/-- Two lexers at the same place of two texts that differ only in case from there on. -/
structure Recased (l m : Lexer) : Prop where
  offset : l.offset = m.offset
  position : l.position = m.position
  rest : Text.Recased false l.rest m.rest

variable {l m : Lexer} {cs ds rest rest' : List Char}

theorem Recased.advance (h : Recased l m) (hchars : cs.map Char.toLower = ds.map Char.toLower)
    (hrest : Text.Recased false rest rest') :
    Recased (l.advance cs rest) (m.advance ds rest') where
  offset := by
    have hsize (n : Nat) (c : Char) (hc : c.isAlpha = true) : n + c.utf8Size = n + 1 := by
      have hrange := Text.isAlpha_iff.1 hc
      have hsmall : c.toNat ≤ 127 := by omega
      rw [Char.utf8Size_eq_one_iff.2 (UInt32.le_iff_toNat_le.2 hsmall)]
    simp only [Lexer.advance, h.offset]
    exact Text.foldl_congr_of_map_toLower_eq hsize hchars m.offset
  position := by
    have hplace (p : Position) (c : Char) (hc : c.isAlpha = true) :
        p.advance c = ⟨p.line, p.column + 1⟩ := by
      refine if_neg ?_
      rintro rfl
      simp at hc
    simp only [Lexer.advance, h.position]
    exact Text.foldl_congr_of_map_toLower_eq hplace hchars m.position
  rest := hrest

theorem Recased.skipBlanks (h : Recased l m) : Recased l.skipBlanks m.skipBlanks := by
  obtain ⟨htake, hdrop⟩ := h.rest.split (p := Text.isBlank)
    (fun _ _ => Text.congr_of_toLower_eq fun _ hc => Text.isBlank_eq_false_of_word (.inl hc)) rfl
  exact h.advance htake hdrop

/-- **A call does not notice the case of letters outside of quotes**, nor do later calls. -/
theorem Recased.next (h : Recased l m) : l.next.1 = m.next.1 ∧ Recased l.next.2 m.next.2 := by
  have hskip := h.skipBlanks
  have hfirst := Lexeme.recased_first hskip.rest
  have hbehind := hskip.advance hfirst.chars hfirst.rest
  refine ⟨?_, by rwa [next_snd, next_snd]⟩
  simp only [Lexer.next, hfirst.meaning, hskip.offset, hskip.position, hbehind.offset]
  cases (Lexeme.first m.skipBlanks.rest).meaning <;> rfl

theorem Recased.take_eq (h : Recased l m) (n : Nat) : l.take n = m.take n := by
  induction n generalizing l m with
  | zero => rfl
  | succ n ih =>
    obtain ⟨hitem, hbehind⟩ := h.next
    exact congrArg₂ List.cons hitem (ih hbehind)

theorem Recased.items_eq (h : Recased l m) : l.items = m.items := by
  induction l using items_induction generalizing m with
  | error l e hnext =>
    rw [items_of_error hnext, items_of_error (h.next.1.symm.trans hnext)]
  | eof l t hnext heof =>
    rw [items_of_eof hnext heof, items_of_eof (h.next.1.symm.trans hnext) heof]
  | token l t hnext hne ih =>
    obtain ⟨hitem, hbehind⟩ := h.next
    rw [items_of_token hnext hne, items_of_token (hitem.symm.trans hnext) hne, ih hbehind]

end Lexer

/-! ## Quotes in front of a place -/

/-- Characters of a class without the quote have no quotes among them. -/
theorem count_quote_eq_zero {p : Char → Bool} {cs : List Char} (hp : p '"' = false)
    (h : ∀ c ∈ cs, p c = true) : cs.count '"' = 0 := by
  refine List.count_eq_zero.2 fun hmem => ?_
  have hquote := h '"' hmem
  simp [hp] at hquote

/-- What a result takes up has an even number of quotes, unless it is all that is left. -/
theorem Item.TakesUp.count_quote {before cs rest : List Char} {i : Item}
    (h : Item.TakesUp before cs rest i) : cs.count '"' % 2 = 0 ∨ rest = [] := by
  cases i with
  | ok t =>
    obtain ⟨kind, span⟩ := t
    obtain ⟨-, hcovers | ⟨-, rfl, rfl⟩⟩ := h
    · refine .inl ?_
      cases kind with
      | mark m =>
        obtain rfl : cs = [m.symbol] := hcovers
        cases m <;> rfl
      | keyword k => rw [count_quote_eq_zero rfl hcovers.1.all]
      | letter v => rw [count_quote_eq_zero rfl hcovers.1.all]
      | number n => rw [count_quote_eq_zero rfl hcovers.1.all]
      | text s =>
        obtain ⟨hs, rfl⟩ := hcovers
        simp [List.count_eq_zero.2 hs]
      | eof => exact hcovers.elim
    · exact .inr rfl
  | error e =>
    obtain ⟨d, position⟩ := e
    obtain ⟨-, h⟩ := h
    cases d with
    | strayCharacter c =>
      obtain ⟨-, rfl⟩ := h
      exact .inl rfl
    | unknownWord word => exact .inl (by rw [count_quote_eq_zero rfl h.1.all])
    | numberTooLarge digits => exact .inl (by rw [count_quote_eq_zero rfl h.1.all])
    | unclosedText => exact .inr h.2
    | badEncoding => exact h.elim

namespace Lexer

/-- **Calls are made outside of quotes**: an even number of them is in front, unless nothing lies
ahead. -/
theorem Call.even_quotes {l : Lexer} {before blanks cs rest : List Char}
    (h : Call l before blanks cs rest)
    (heven : before.count '"' % 2 = 0 ∨ blanks ++ (cs ++ rest) = []) :
    (before ++ blanks ++ cs).count '"' % 2 = 0 ∨ rest = [] := by
  obtain hbefore | hnil := heven
  · refine h.takesUp.count_quote.imp_left fun hcs => ?_
    rw [List.count_append, List.count_append, count_quote_eq_zero rfl h.blank]
    omega
  · rw [List.append_eq_nil_iff, List.append_eq_nil_iff] at hnil
    exact .inr hnil.2.2

/-- The characters of a text are those that stand between its quotes, in the case they have there.
An even number of quotes is in front of the first of the two. -/
theorem text_verbatim {source s : String} {span : Span} {n : Nat}
    (h : .ok ⟨.text s, span⟩ ∈ (ofString source).take n) :
    ∃ before rest, source.toList = before ++ ('"' :: (s.toList ++ ['"']) ++ rest) ∧
      before.count '"' % 2 = 0 ∧ span = .of before ('"' :: (s.toList ++ ['"'])) := by
  rw [take_eq_map] at h
  obtain ⟨k, -, hk⟩ := List.mem_map.1 h
  obtain ⟨before, blanks, cs, rest, hsource, hcall, heven, -⟩ :=
    exists_call_drop_of (P := fun before ahead => before.count '"' % 2 = 0 ∨ ahead = [])
      source (.inl rfl) Call.even_quotes k
  have htakes := hcall.takesUp
  rw [hk] at htakes
  obtain ⟨hspan, ⟨-, rfl⟩ | ⟨heof, -⟩⟩ := htakes
  · have hbefore : before.count '"' % 2 = 0 := heven.resolve_right (by simp)
    refine ⟨before ++ blanks, rest, by rw [hsource, List.append_assoc], ?_, hspan⟩
    rwa [List.count_append, count_quote_eq_zero rfl hcall.blank, Nat.add_zero]
  · cases heof

end Lexer

/-- **Letter case outside of quotes is irrelevant.** Two texts that differ in nothing else give the
same results however often their lexers are called, so they have the same tokens and are parsed as
the same program, which is compiled and run in the same way. Texts between quotes keep the case they
have: an even number of quotes is in front of them, and no letter of theirs is switched. -/
theorem letter_case_is_irrelevant (source : String) (chosen : Nat → Bool) :
    (∀ n, (Lexer.ofString (Text.recase chosen source)).take n = (Lexer.ofString source).take n) ∧
      tokenize (Text.recase chosen source) = tokenize source ∧
      parse (Text.recase chosen source) = parse source ∧
      (parse (Text.recase chosen source)).map Program.compile = (parse source).map Program.compile ∧
      (∀ b : Backend, (parse (Text.recase chosen source)).map b.prepare =
        (parse source).map b.prepare) ∧
      ∀ n s span, .ok ⟨.text s, span⟩ ∈ (Lexer.ofString (Text.recase chosen source)).take n →
        ∃ before rest, source.toList = before ++ ('"' :: (s.toList ++ ['"']) ++ rest) ∧
          before.count '"' % 2 = 0 ∧ span = .of before ('"' :: (s.toList ++ ['"'])) := by
  have hrecased : (Lexer.ofString source).Recased (Lexer.ofString (Text.recase chosen source)) :=
    ⟨rfl, rfl, Text.recased_recase chosen source⟩
  have htake (n : Nat) : (Lexer.ofString (Text.recase chosen source)).take n =
      (Lexer.ofString source).take n := (hrecased.take_eq n).symm
  have hparse : parse (Text.recase chosen source) = parse source := by
    rw [parse, parse, hrecased.items_eq]
  refine ⟨htake, ?_, hparse, by rw [hparse], fun b => by rw [hparse], fun n s span h => ?_⟩
  · rw [tokenize, tokenize, hrecased.items_eq]
  · rw [htake] at h
    exact Lexer.text_verbatim h

/-- All letters in the other case: a keyword, a variable and a bad word are read as before, and a
text with a letter of two bytes is kept. -/
theorem letter_case_is_irrelevant_around_text :
    let source := "iF A < \"iF é\" zZ"
    let other := "If a < \"iF é\" Zz"
    other = Text.recase (fun _ => true) source ∧
      (Lexer.ofString other).take 6 = (Lexer.ofString source).take 6 ∧
      .ok ⟨.text "iF é", ⟨7, 14, ⟨1, 7⟩⟩⟩ ∈ (Lexer.ofString other).take 6 ∧
      ∃ before rest, source.toList = before ++ ('"' :: ("iF é".toList ++ ['"']) ++ rest) ∧
        before.count '"' % 2 = 0 ∧
        (⟨7, 14, ⟨1, 7⟩⟩ : Span) = .of before ('"' :: ("iF é".toList ++ ['"'])) := by
  intro source other
  have hother : other = Text.recase (fun _ => true) source := by decide +kernel
  have hmem : .ok ⟨.text "iF é", ⟨7, 14, ⟨1, 7⟩⟩⟩ ∈ (Lexer.ofString other).take 6 := by
    decide +kernel
  obtain ⟨htake, -, -, -, -, htext⟩ := letter_case_is_irrelevant source fun _ => true
  rw [← hother] at htake htext
  exact ⟨hother, htake 6, hmem, htext 6 "iF é" ⟨7, 14, ⟨1, 7⟩⟩ hmem⟩

end Abecedary
