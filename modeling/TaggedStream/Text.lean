import TaggedStream.Bytes

/-!
# UTF-8 text

* `Text.encode s`    the bytes of a string
* `Text.decode? b`   the string with those bytes, if they are well-formed UTF-8
-/

namespace TaggedStream.Text

def encode (s : String) : Bytes := s.toUTF8.data.toList

def decode? (b : Bytes) : Option String := String.fromUTF8? ⟨b.toArray⟩

theorem length_encode (s : String) : (encode s).length = s.utf8ByteSize := rfl

theorem decode?_encode (s : String) : decode? (encode s) = some s := by
  have h : (⟨(encode s).toArray⟩ : ByteArray) = s.toByteArray := by
    simp [encode, String.toUTF8_eq_toByteArray]
  rw [decode?, h, String.fromUTF8?, dif_pos s.isValidUTF8]
  rfl

theorem encode_of_decode? {b : Bytes} {s : String} (h : decode? b = some s) : encode s = b := by
  unfold decode? String.fromUTF8? at h
  split at h
  · cases h
    simp [encode, String.toUTF8_eq_toByteArray, String.fromUTF8]
  · cases h

end TaggedStream.Text
