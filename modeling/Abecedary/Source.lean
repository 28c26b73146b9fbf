import Abecedary.Lexer
import Abecedary.Text.Utf8

/-!
# Source texts

A source arrives as bytes and has to be the encoding of a text. If it is not, the error stands
where the text that can be decoded ends.
-/

namespace Abecedary

/-- The text of a source. -/
def decodeSource (b : ByteArray) : Except LexError String :=
  match String.fromUTF8? b with
  | some s => .ok s
  | none => .error ⟨.badEncoding, .after (Text.wellFormedPrefix b)⟩

theorem decodeSource_eq_ok_iff {b : ByteArray} {s : String} :
    decodeSource b = .ok s ↔ s.toByteArray = b := by
  unfold decodeSource String.fromUTF8?
  constructor
  · intro h
    split at h
    · next hs =>
      split at hs
      · cases hs
        cases h
        rfl
      · cases hs
    · cases h
  · rintro rfl
    rw [dif_pos s.isValidUTF8]
    rfl

/-- An error is that of the encoding, at the end of what can be decoded. -/
theorem eq_of_decodeSource_eq_error {b : ByteArray} {e : LexError}
    (h : decodeSource b = .error e) : e = ⟨.badEncoding, .after (Text.wellFormedPrefix b)⟩ := by
  unfold decodeSource at h
  split at h
  · cases h
  · exact (Except.error.inj h).symm

end Abecedary
