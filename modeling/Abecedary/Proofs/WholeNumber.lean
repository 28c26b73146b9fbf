import Mathlib.Algebra.Order.Ring.Nat
import Mathlib.Tactic.Ring
import Abecedary.Number.Basic
import Abecedary.Code.Basic

/-!
# Whole numbers are finite

The constants of a program are signed words of 64 bits, and the number nearest to such a word has
an exponent far below the largest. So its bytes never begin with the tag of a text
(`Number.take_bytes_ofInt64_ne_textTag`).
-/

namespace Abecedary

theorem Code.littleEndian_add (k l n : Nat) :
    littleEndian (k + l) n = littleEndian k n ++ littleEndian l (n / 256 ^ k) := by
  induction k generalizing n with
  | zero => simp [littleEndian]
  | succ k ih =>
    rw [Nat.add_right_comm, littleEndian, ih, Nat.div_div_eq_div_mul, ← Nat.pow_succ']
    rfl

/-- The first bytes of a word, the most significant first, are those of its upper part. -/
theorem Code.take_bigEndian (k l n : Nat) :
    (bigEndian (l + k) n).take k = bigEndian k (n / 256 ^ l) := by
  rw [bigEndian, littleEndian_add, List.reverse_append, List.take_left' (by simp)]
  rfl

namespace Number

theorem shiftRound_le {m s : Nat} (h : m < 2 ^ (53 + s)) : shiftRound m s ≤ 2 ^ 53 := by
  have hq : m >>> s < 2 ^ 53 := by
    rw [Nat.shiftRight_eq_div_pow, Nat.div_lt_iff_lt_mul (Nat.two_pow_pos s), ← Nat.pow_add]
    exact h
  unfold shiftRound
  dsimp only
  split <;> omega

/-- A whole number of at most 64 bits has an exponent field far from the largest. -/
theorem wholeBits_le {m : Nat} (h : m ≤ 2 ^ 63) : wholeBits m ≤ 1087 * 2 ^ 52 := by
  unfold wholeBits
  split
  · exact Nat.zero_le _
  · next hm =>
    have hk : m.log2 ≤ 63 := by
      rw [← Nat.lt_succ_iff, Nat.log2_lt hm]
      omega
    have hlt : m < 2 ^ (m.log2 + 1) := Nat.lt_log2_self
    have hmantissa : (if m.log2 ≤ 52 then m <<< (52 - m.log2) else shiftRound m (m.log2 - 52)) ≤
        2 ^ 53 := by
      split
      · next hle =>
        rw [Nat.shiftLeft_eq]
        calc m * 2 ^ (52 - m.log2) ≤ 2 ^ (m.log2 + 1) * 2 ^ (52 - m.log2) :=
              Nat.mul_le_mul_right _ hlt.le
          _ = 2 ^ 53 := by rw [← Nat.pow_add]; congr 1; omega
      · next hle =>
        refine shiftRound_le ?_
        rwa [show 53 + (m.log2 - 52) = m.log2 + 1 by omega]
    dsimp only
    rw [Nat.shiftLeft_eq]
    have hexponent : (m.log2 + 1022) * 2 ^ 52 ≤ 1085 * 2 ^ 52 :=
      Nat.mul_le_mul_right (2 ^ 52) (by omega)
    calc _ ≤ 1085 * 2 ^ 52 + 2 ^ 53 := Nat.add_le_add hexponent hmantissa
      _ = 1087 * 2 ^ 52 := by norm_num

/-- The upper half of the bits of a whole number is not the tag of a text, read as a word. -/
theorem bits_ofInt64_div_ne (n : Int64) : (ofInt64 n).bits.toNat / 2 ^ 32 ≠ 0x7FF00000 := by
  have hlow := n.le_toInt
  have hhigh := n.toInt_lt
  have hle : wholeBits n.toInt.natAbs ≤ 1087 * 2 ^ 52 := wholeBits_le (by omega)
  simp only [ofInt64, UInt64.toNat_ofNat', Nat.one_shiftLeft]
  split <;> omega

/-- **A constant never begins like a text.** -/
theorem take_bytes_ofInt64_ne_textTag (n : Int64) :
    (Code.bigEndian 8 (ofInt64 n).bits.toNat).take 4 ≠ Code.textTag := by
  intro h
  apply bits_ofInt64_div_ne n
  have hlt := (ofInt64 n).bits.toNat_lt
  rw [Code.take_bigEndian (k := 4) (l := 4)] at h
  have h := congrArg Code.ofBigEndian h
  rw [Code.ofBigEndian_bigEndian, show Code.ofBigEndian Code.textTag = 0x7FF00000 from rfl,
    show 1 <<< (8 * 4) = 2 ^ 32 from rfl, show 256 ^ 4 = 2 ^ 32 from rfl] at h
  omega

end Number

end Abecedary
