/-!
# Texts as bytes

Texts are stored in UTF-8.
-/

set_option autoImplicit false

namespace Mobility.Utf8

/-- The bytes of a text. -/
def encode (s : String) : List UInt8 := s.toUTF8.toList

/-- The text in some bytes, if they are one. -/
def decode? (bytes : List UInt8) : Option String := String.fromUTF8? ⟨bytes.toArray⟩

end Mobility.Utf8
