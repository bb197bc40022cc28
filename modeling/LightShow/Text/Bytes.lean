/-
  Texts as bytes.

  A text is stored in UTF-8. An ASCII character is one byte
  below 128; any other character is a lead byte followed by
  one to three continuation bytes, all of them from 128 on.

  Key definitions include:
    * `LightShow.Text.bytes`
    * `LightShow.Text.ofBytes`
    * `LightShow.Text.isContinuation`
-/

namespace LightShow

namespace Text

/- The bytes of a run of characters. -/
def encode (cs : List Char) : List UInt8 :=
  cs.flatMap String.utf8EncodeChar

/- The bytes of a text. -/
def bytes (s : String) : List UInt8 :=
  s.toByteArray.data.toList

/- The text of given bytes, empty if they are not UTF-8. -/
def ofBytes (bs : List UInt8) : String :=
  (String.fromUTF8? ⟨bs.toArray⟩).getD ""

/- Whether a byte belongs to the character before it. -/
def isContinuation (b : UInt8) : Bool :=
  b &&& 0xC0 == 0x80

end Text

end LightShow
