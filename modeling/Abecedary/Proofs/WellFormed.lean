import Mathlib.Tactic.SplitIfs
import Abecedary.Proofs.MaximalMunch
import Abecedary.Source

/-!
# Well-formed sources

UTF-8 by its rules, and not by a program that reads it: what number a sequence of bytes carries
(`Utf8.Carries`), which sequences stand for a character (`Utf8.Encodes`: those that carry its number
and are not overlong), and which bytes are well-formed (`Utf8.WellFormed`: such sequences one behind
the other, the last of them not cut). The encoder writes exactly the sequences that stand for
characters (`Utf8.encodes_iff`).

A source is accepted exactly if its bytes are well-formed, as the text that has these bytes.
Otherwise the error stands where a lexer stands behind the longest well-formed beginning of the
bytes (`decodeSource_accepts_wellFormed`).
-/

namespace Abecedary

namespace Utf8

/-! ## Sequences of bytes -/

/-- The number that a sequence of bytes carries. A byte that begins with a zero carries the bits
behind it; otherwise the first byte begins with as many ones as there are bytes, and a zero, and
each byte behind it with a one and a zero, and the bits that are left are the number. -/
inductive Carries : List UInt8 → Nat → Prop
  | one {a : UInt8} {n : Nat} (ha : a.toNat / 128 = 0b0) (hn : n = a.toNat % 128) : Carries [a] n
  | two {a b : UInt8} {n : Nat} (ha : a.toNat / 32 = 0b110) (hb : b.toNat / 64 = 0b10)
    (hn : n = a.toNat % 32 * 64 + b.toNat % 64) : Carries [a, b] n
  | three {a b c : UInt8} {n : Nat} (ha : a.toNat / 16 = 0b1110) (hb : b.toNat / 64 = 0b10)
    (hc : c.toNat / 64 = 0b10)
    (hn : n = (a.toNat % 16 * 64 + b.toNat % 64) * 64 + c.toNat % 64) : Carries [a, b, c] n
  | four {a b c d : UInt8} {n : Nat} (ha : a.toNat / 8 = 0b11110) (hb : b.toNat / 64 = 0b10)
    (hc : c.toNat / 64 = 0b10) (hd : d.toNat / 64 = 0b10)
    (hn : n = ((a.toNat % 8 * 64 + b.toNat % 64) * 64 + c.toNat % 64) * 64 + d.toNat % 64) :
    Carries [a, b, c, d] n

/-- A sequence of bytes that stands for the character with a number. -/
structure Encodes (bs : List UInt8) (n : Nat) : Prop where
  carries : Carries bs n
  /-- No surrogate, and nothing above the last code point. -/
  scalar : n < 0xD800 ∨ 0xDFFF < n ∧ n ≤ 0x10FFFF
  /-- No overlong form. -/
  shortest : ∀ cs, Carries cs n → bs.length ≤ cs.length

/-- Well-formed bytes: sequences that stand for characters, one behind the other. -/
inductive WellFormed : List UInt8 → Prop
  | nil : WellFormed []
  | append {bs cs : List UInt8} {n : Nat} (hbs : Encodes bs n) (hcs : WellFormed cs) :
    WellFormed (bs ++ cs)

/-- The well-formed beginning of some bytes that contains every other. -/
structure LongestPrefix (p bs : List UInt8) : Prop where
  isPrefix : p <+: bs
  wellFormed : WellFormed p
  longest : ∀ q, q <+: bs → WellFormed q → q <+: p

variable {bs cs p q : List UInt8} {n : Nat} {c : Char}

/-- There is one longest well-formed beginning. -/
theorem LongestPrefix.unique (hp : LongestPrefix p bs) (hq : LongestPrefix q bs) : p = q :=
  (hq.longest p hp.isPrefix hp.wellFormed).eq_of_length_le
    (hp.longest q hq.isPrefix hq.wellFormed).length_le

/-- Sequences of one length that carry one number are the same. -/
theorem Carries.unique (hbs : Carries bs n) (hcs : Carries cs n) (h : bs.length = cs.length) :
    bs = cs := by
  cases hbs <;> cases hcs <;> simp at h <;>
    simp only [List.cons.injEq, ← UInt8.toNat_inj, and_true] <;> omega

theorem carries_utf8EncodeChar (c : Char) : Carries (String.utf8EncodeChar c) c.toNat := by
  have hvalid : c.toNat.isValidChar := c.valid
  simp only [String.utf8EncodeChar, Char.toNat_val]
  split_ifs
  · apply Carries.one <;> simp <;> omega
  · apply Carries.two <;> simp <;> omega
  · apply Carries.three <;> simp <;> omega
  · apply Carries.four <;> simp <;> omega

/-- No sequence that carries the number of a character is shorter than its encoding. -/
theorem Carries.length_utf8EncodeChar_le (h : Carries bs c.toNat) :
    (String.utf8EncodeChar c).length ≤ bs.length := by
  simp only [String.utf8EncodeChar, Char.toNat_val]
  cases h <;> split_ifs <;> simp <;> omega

/-- **A sequence stands for a character exactly if it is what the encoder writes for it.** -/
theorem encodes_iff : Encodes bs n ↔ ∃ c : Char, c.toNat = n ∧ bs = String.utf8EncodeChar c := by
  constructor
  · rintro ⟨hcarries, hscalar, hshortest⟩
    have hvalid : n.isValidChar := hscalar.imp_right fun h => ⟨h.1, by omega⟩
    have hn : (Char.ofNat n).toNat = n := by
      rw [Char.ofNat, dif_pos hvalid]
      rfl
    rw [← hn] at hcarries hshortest
    have hencoded := carries_utf8EncodeChar (Char.ofNat n)
    have hlength := Nat.le_antisymm (hshortest _ hencoded) hcarries.length_utf8EncodeChar_le
    exact ⟨Char.ofNat n, hn, hcarries.unique hencoded hlength⟩
  · rintro ⟨c, rfl, rfl⟩
    have hvalid : c.toNat.isValidChar := c.valid
    exact ⟨carries_utf8EncodeChar c, by omega, fun cs hcs => hcs.length_utf8EncodeChar_le⟩

theorem wellFormed_iff :
    WellFormed bs ↔ ∃ cs : List Char, cs.flatMap String.utf8EncodeChar = bs := by
  constructor
  · intro h
    induction h with
    | nil => exact ⟨[], rfl⟩
    | append hbs _ ih =>
      obtain ⟨c, -, rfl⟩ := encodes_iff.1 hbs
      obtain ⟨cs, rfl⟩ := ih
      exact ⟨c :: cs, rfl⟩
  · rintro ⟨cs, rfl⟩
    induction cs with
    | nil => exact .nil
    | cons c cs ih => exact .append (encodes_iff.2 ⟨c, rfl, rfl⟩) ih

theorem wellFormed_iff_exists_text : WellFormed bs ↔ ∃ s, Text.bytes s = bs := by
  rw [wellFormed_iff]
  constructor
  · rintro ⟨cs, rfl⟩
    exact ⟨String.ofList cs, Text.bytes_ofList cs⟩
  · rintro ⟨s, rfl⟩
    exact ⟨s.toList, by rw [← Text.bytes_ofList, String.ofList_toList]⟩

end Utf8

/-! ## Decoding -/

namespace Text

/-- A character is decoded exactly where its encoding stands. -/
theorem utf8DecodeChar?_eq_some_iff {b : ByteArray} {i : Nat} {c : Char} :
    b.utf8DecodeChar? i = some c ↔ String.utf8EncodeChar c <+: b.data.toList.drop i := by
  rw [ByteArray.utf8DecodeChar?_eq_utf8DecodeChar?_extract]
  have hdrop : b.data.toList.drop i = (b.extract i b.size).data.toList := by
    rw [ByteArray.data_extract, Array.toList_extract, List.extract_eq_take_drop]
    exact (List.take_of_length_le (by simp)).symm
  rw [hdrop]
  generalize b.extract i b.size = ahead
  constructor
  · intro h
    obtain ⟨l, rfl⟩ := ByteArray.exists_of_utf8DecodeChar?_eq_some h
    exact ⟨l.data.toList, by simp⟩
  · rintro ⟨l, hl⟩
    have hahead : ahead = (String.utf8EncodeChar c).toByteArray ++ l.toByteArray := by
      rw [← List.toByteArray_append, hl, ByteArray.ext_iff, List.data_toByteArray]
    rw [hahead, ByteArray.utf8DecodeChar?_utf8EncodeChar_append]

/-- **Decoding goes on as long as characters are encoded**: what it finds from a place on is encoded
there, and nothing longer is. -/
theorem charsFrom_spec (b : ByteArray) (i : Nat) (before : Array Char) :
    ∃ cs, (charsFrom b i before).toList = before.toList ++ cs ∧
      cs.flatMap String.utf8EncodeChar <+: b.data.toList.drop i ∧
      ∀ ds : List Char, ds.flatMap String.utf8EncodeChar <+: b.data.toList.drop i → ds <+: cs := by
  have hhead {i d} {ds : List Char}
      (h : (d :: ds).flatMap String.utf8EncodeChar <+: b.data.toList.drop i) :
      b.utf8DecodeChar? i = some d :=
    utf8DecodeChar?_eq_some_iff.2 ((List.prefix_append _ _).trans h)
  fun_induction charsFrom b i before with
  | case1 i before hnone =>
    refine ⟨[], by simp, List.nil_prefix, fun ds hds => ?_⟩
    cases ds with
    | nil => exact List.nil_prefix
    | cons d ds => cases hnone.symm.trans (hhead hds)
  | case2 i before c hsome ih =>
    obtain ⟨cs, hchars, hbegins, hlongest⟩ := ih
    have hsplit : b.data.toList.drop i =
        String.utf8EncodeChar c ++ b.data.toList.drop (i + c.utf8Size) := by
      obtain ⟨l, hl⟩ := utf8DecodeChar?_eq_some_iff.1 hsome
      rw [← List.drop_drop, ← hl, List.drop_left' (String.length_utf8EncodeChar c)]
    refine ⟨c :: cs, by simp [hchars], ?_, fun ds hds => ?_⟩
    · rwa [hsplit, List.flatMap_cons, List.prefix_append_right_inj]
    · cases ds with
      | nil => exact List.nil_prefix
      | cons d ds =>
        -- no other character can begin what begins with the one that is decoded
        obtain rfl : c = d := Option.some.inj (hsome.symm.trans (hhead hds))
        rw [hsplit, List.flatMap_cons, List.prefix_append_right_inj] at hds
        exact (List.prefix_cons_inj c).2 (hlongest ds hds)

end Text

open Utf8 Text

/-- The characters that can be decoded are encoded by the longest well-formed beginning. -/
theorem longestPrefix_wellFormedPrefix (b : ByteArray) :
    LongestPrefix (bytes (String.ofList (wellFormedPrefix b))) b.data.toList := by
  obtain ⟨cs, hchars, hbegins, hlongest⟩ := charsFrom_spec b 0 #[]
  have hcs : wellFormedPrefix b = cs := by simpa [wellFormedPrefix] using hchars
  rw [hcs, bytes_ofList]
  refine ⟨hbegins, wellFormed_iff.2 ⟨cs, rfl⟩, fun q hq hwell => ?_⟩
  obtain ⟨ds, rfl⟩ := wellFormed_iff.1 hwell
  obtain ⟨more, rfl⟩ := hlongest ds hq
  rw [List.flatMap_append]
  exact List.prefix_append _ _

/-- A surrogate ends what can be decoded. -/
example : wellFormedPrefix ⟨#[0x61, 0x0A, 0xE2, 0x82, 0xAC, 0xED, 0xA0, 0x80]⟩ =
    ['a', '\n', '€'] := by decide +kernel

/-- A lexer that has gone over a whole text stands where the text ends. -/
theorem Lexer.position_advance_ofString (s : String) :
    ((ofString s).advance s.toList []).position = .after s.toList := by
  rw [ofString_eq, advance_between, List.nil_append, between]

/-- **Sources are accepted exactly if they are well-formed**, as the text with their bytes, and
otherwise are refused where a lexer stands that has gone over their longest well-formed beginning.
-/
theorem decodeSource_accepts_wellFormed (b : ByteArray) :
    ((∃ s, decodeSource b = .ok s) ↔ WellFormed b.data.toList) ∧
      (∀ s, decodeSource b = .ok s ↔ bytes s = b.data.toList) ∧
      ∀ e, decodeSource b = .error e ↔ ¬ WellFormed b.data.toList ∧
        ∃ s, LongestPrefix (bytes s) b.data.toList ∧
          e = ⟨.badEncoding, ((Lexer.ofString s).advance s.toList []).position⟩ := by
  have hok (s : String) : decodeSource b = .ok s ↔ bytes s = b.data.toList := by
    rw [decodeSource_eq_ok_iff, bytes_eq_iff]
  have hwell : (∃ s, decodeSource b = .ok s) ↔ WellFormed b.data.toList := by
    simp only [hok, wellFormed_iff_exists_text]
  have hlongest := longestPrefix_wellFormedPrefix b
  refine ⟨hwell, hok, fun e => ?_⟩
  simp only [Lexer.position_advance_ofString]
  constructor
  · intro h
    refine ⟨fun hb => ?_, _, hlongest, ?_⟩
    · obtain ⟨s, hs⟩ := hwell.2 hb
      cases hs.symm.trans h
    · rw [String.toList_ofList]
      exact eq_of_decodeSource_eq_error h
  · rintro ⟨hb, s, hs, rfl⟩
    obtain rfl : s = String.ofList (wellFormedPrefix b) := bytes_inj.1 (hs.unique hlongest)
    rw [String.toList_ofList]
    cases h : decodeSource b with
    | ok s => exact absurd (hwell.1 ⟨s, h⟩) hb
    | error e => rw [eq_of_decodeSource_eq_error h]

end Abecedary
