/-!
# Text as bytes

Texts are stored in UTF-8. `Text.bytes` encodes, `Text.ofBytes?` decodes and accepts exactly the
encodings (`ofBytes?_eq_some_iff`), and `Text.wellFormedPrefix` is what can be decoded of bytes
that are no encoding: the characters up to the first place where none is encoded.
-/

namespace Abecedary.Text

/-- The encoding of a text. -/
def bytes (s : String) : List UInt8 := s.toByteArray.data.toList

theorem bytes_ofList (cs : List Char) :
    bytes (String.ofList cs) = cs.flatMap String.utf8EncodeChar := by
  rw [bytes, String.toByteArray_ofList, List.utf8Encode, List.toList_data_toByteArray]

theorem bytes_eq_iff {b : ByteArray} {s : String} :
    bytes s = b.data.toList ↔ s.toByteArray = b := by
  rw [bytes, Array.toList_inj, ByteArray.ext_iff]

theorem bytes_inj {s t : String} : bytes s = bytes t ↔ s = t :=
  bytes_eq_iff.trans String.toByteArray_inj

/-- The text that some bytes encode, if they do. -/
def ofBytes? (bs : List UInt8) : Option String := String.fromUTF8? ⟨bs.toArray⟩

theorem ofBytes?_eq_some_iff {bs : List UInt8} {s : String} :
    ofBytes? bs = some s ↔ bs = bytes s := by
  simp only [ofBytes?, String.fromUTF8?, bytes]
  constructor
  · intro h
    split at h
    · rw [← Option.some.inj h]
      rfl
    · simp at h
  · rintro rfl
    rw [dif_pos (by simpa using s.isValidUTF8)]
    rfl

/-- The characters encoded from a place on, up to the first place where none is encoded, behind
some others. -/
def charsFrom (b : ByteArray) (i : Nat) (before : Array Char) : Array Char :=
  match _h : b.utf8DecodeChar? i with
  | none => before
  | some c => charsFrom b (i + c.utf8Size) (before.push c)
termination_by b.size - i
decreasing_by
  have := ByteArray.le_size_of_utf8DecodeChar?_eq_some _h
  have := c.utf8Size_pos
  omega

/-- The longest text whose encoding is a prefix of the bytes. -/
def wellFormedPrefix (b : ByteArray) : List Char := (charsFrom b 0 #[]).toList

end Abecedary.Text
