/-!
# Texts as bytes

Input and output are bytes, texts are sequences of characters, and UTF-8 joins the two. `encode`
is defined for every text; `decode?` refuses the byte sequences that no text has.
`decode?_eq_some_iff` says that the two are inverse to each other.
-/

namespace BoolScript.Text

/-- The bytes of a text. -/
def encode (text : String) : List UInt8 :=
  text.toByteArray.data.toList

/-- The text with these bytes, if there is one. -/
def decode? (bytes : List UInt8) : Option String :=
  String.fromUTF8? ⟨bytes.toArray⟩

/-- Reading bytes as a text succeeds with a text exactly if these are its bytes. -/
theorem decode?_eq_some_iff {bytes : List UInt8} {text : String} :
    decode? bytes = some text ↔ encode text = bytes := by
  unfold decode? encode String.fromUTF8?
  constructor
  · intro h
    split at h
    · obtain rfl := Option.some.inj h
      simp [String.fromUTF8]
    · simp at h
  · rintro rfl
    have h : (ByteArray.mk text.toByteArray.data.toList.toArray) = text.toByteArray := by simp
    rw [dif_pos (by rw [h]; exact text.isValidUTF8)]
    simp [String.fromUTF8]

@[simp] theorem decode?_encode (text : String) : decode? (encode text) = some text :=
  decode?_eq_some_iff.2 rfl

theorem encode_injective {text other : String} (h : encode text = encode other) :
    text = other := by
  have := decode?_encode text
  rw [h, decode?_encode] at this
  exact (Option.some.inj this).symm

@[simp] theorem encode_empty : encode "" = [] := by
  simp [encode]

@[simp] theorem encode_append (text other : String) :
    encode (text ++ other) = encode text ++ encode other := by
  simp [encode]

@[simp] theorem length_encode (text : String) : (encode text).length = text.utf8ByteSize := by
  simp [encode, ← String.size_toByteArray]

end BoolScript.Text
