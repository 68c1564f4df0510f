/-!
# Bytes

The content of a file is a list of bytes; text is bytes that are valid UTF-8.
-/

set_option autoImplicit false

namespace PathForecast

abbrev Bytes := List UInt8

namespace Bytes

def ofText (s : String) : Bytes := s.toUTF8.data.toList

/-- The text that the bytes spell, if they are valid UTF-8. -/
def text? (b : Bytes) : Option String := String.fromUTF8? ⟨b.toArray⟩

/-- What was written as bytes is read back as the same text. -/
theorem text?_ofText (s : String) : text? (ofText s) = some s := by
  have h : (⟨(ofText s).toArray⟩ : ByteArray) = s.toByteArray := by
    simp [ofText, String.toUTF8]
  simp [text?, h, String.fromUTF8?, s.isValidUTF8]
  rfl

end Bytes

end PathForecast
