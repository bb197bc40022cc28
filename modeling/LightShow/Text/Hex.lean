/-
  Bytes as lowercase hexadecimal text.

  Key definitions include:
    * `LightShow.Text.hex`
    * `LightShow.Text.bytesOfHex?`
-/

namespace LightShow

namespace Text

/- The hexadecimal digit of a number below sixteen. -/
def hexDigit (n : Nat) : Char :=
  if n < 10 then Char.ofNat ('0'.toNat + n)
  else Char.ofNat ('a'.toNat + (n - 10))

/- The value of a hexadecimal digit of either case. -/
def hexValue? (c : Char) : Option Nat :=
  if c.isDigit then some (c.toNat - '0'.toNat)
  else if 'a' ≤ c && c ≤ 'f' then
    some (c.toNat - 'a'.toNat + 10)
  else if 'A' ≤ c && c ≤ 'F' then
    some (c.toNat - 'A'.toNat + 10)
  else none

/- Two digits per byte, high half first. -/
def hex (bytes : List UInt8) : String :=
  String.ofList <|
    bytes.flatMap fun b =>
      [hexDigit (b.toNat / 16), hexDigit (b.toNat % 16)]

/- Read pairs of digits back into bytes. -/
def bytesOfDigits? : List Char → Option (List UInt8)
  | [] => some []
  | [_] => none
  | a :: b :: rest => do
      let hi ← hexValue? a
      let lo ← hexValue? b
      let bytes ← bytesOfDigits? rest
      return UInt8.ofNat (16 * hi + lo) :: bytes

/- Read hexadecimal text back into bytes. -/
def bytesOfHex? (s : String) : Option (List UInt8) :=
  bytesOfDigits? s.toList

end Text

end LightShow
