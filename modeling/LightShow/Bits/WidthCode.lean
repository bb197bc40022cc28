import LightShow.Bits.Record

/-
  Values of varying width.

  A short code announces how many bytes the value behind it
  takes, so small values stay small. The two-bit code
  announces one to four bytes; the three-bit code can also
  announce that there is no value, which then is zero.

  Key definitions include:
    * `LightShow.WidthCode`
    * `LightShow.WidthCode.two`
    * `LightShow.WidthCode.three`
    * `LightShow.WidthCode.sized2`
    * `LightShow.WidthCode.sized3`
-/

namespace LightShow

/- A code of `width` bits that announces `bytes` bytes. -/
structure WidthCode where
  bytes : Nat
  width : Nat
  code : Nat
deriving DecidableEq, Repr

namespace WidthCode

/- The name of the fields that hold such codes. -/
def fieldName : String := "byte width opcode"

/- The bytes that a value takes, at least one and at most
four. -/
def byteCount (value : Nat) : Nat :=
  if value < 0x100 then 1
  else if value < 0x10000 then 2
  else if value < 0x1000000 then 3
  else 4

/- The two-bit code for a value. -/
def two (value : Nat) : WidthCode :=
  let bytes := byteCount value
  ⟨bytes, 2, bytes - 1⟩

/- The three-bit code for a value. -/
def three (value : Nat) : WidthCode :=
  let bytes := if value = 0 then 0 else byteCount value
  ⟨bytes, 3, bytes⟩

/- The width of the value that a code announces. -/
def valueWidth (c : WidthCode) : Nat :=
  c.bytes * 8

/- The name of a number of bytes. -/
def bytesText (bytes : Nat) : String :=
  s!"Bytes{bytes}"

/- The name of a code. -/
def text (c : WidthCode) : String :=
  bytesText c.bytes

/- The name of a number read from a code field. -/
def textOfCode : (width code : Nat) → String
  | 2, code =>
      if code < 4 then bytesText (code + 1) else "unknown"
  | 3, code =>
      if code < 5 then bytesText code else "unknown"
  | _, code => s!"{code}"

------------------------------------------------------------
-- Fields
------------------------------------------------------------

/- The field of a code. -/
def field (c : WidthCode) : Field :=
  ⟨fieldName, Bits.ofNat c.width c.code⟩

/- A value behind the two-bit code for another value. -/
def sized2By
    (name : String)
    (sizedBy value : Nat) : Except Fault (List Field) := do
  let c := two sizedBy
  let f ← Field.ofValue name c.valueWidth value
  return [c.field, f]

/- A value behind its two-bit code. -/
def sized2
    (name : String)
    (value : Nat) : Except Fault (List Field) :=
  sized2By name value value

/- A value behind its three-bit code; zero has no bytes. -/
def sized3
    (name : String)
    (value : Nat) : Except Fault (List Field) := do
  let c := three value
  if c.bytes = 0 then return [c.field]
  let f ← Field.ofValue name c.valueWidth value
  return [c.field, f]

end WidthCode

namespace Record

/-
  Put a code and its value at the end of a record. If the
  value does not fit, the code stays without it.
-/
def pushSized
    (r : Record)
    (code : WidthCode)
    (fields : Except Fault (List Field)) :
    Record × Except Fault (List Field) :=
  match fields with
  | .ok fs => (r.push fs, .ok fs)
  | .error e => (r.push [code.field], .error e)

end Record

end LightShow
