/-
  Bit strings.

  A bit string is a list of truth values, the bit that is
  sent first in front. Read as a number, the first bit is
  the most significant one.

  Key definitions include:
    * `LightShow.Bits`
    * `LightShow.Bits.ofNat`
    * `LightShow.Bits.toNat`
    * `LightShow.Bits.toBytes`
    * `LightShow.Bits.ofBytes`
    * `LightShow.Bits.text`
-/

namespace LightShow

/- A bit string, first bit first. -/
abbrev Bits := List Bool

namespace Bits

------------------------------------------------------------
-- Numbers
------------------------------------------------------------

/- Bits that are all zero. -/
def zeros (width : Nat) : Bits :=
  List.replicate width false

/- Bits that are all one. -/
def ones (width : Nat) : Bits :=
  List.replicate width true

/- The lowest `width` bits of a number. -/
def ofNat : (width : Nat) → Nat → Bits
  | 0, _ => []
  | w + 1, v => v.testBit w :: ofNat w v

/- The number that a bit string spells. -/
def toNat (bits : Bits) : Nat :=
  bits.foldl (fun n b => 2 * n + b.toNat) 0

------------------------------------------------------------
-- Bytes
------------------------------------------------------------

/- The byte of up to eight bits, zeros behind them. -/
def byte (bits : Bits) : UInt8 :=
  UInt8.ofNat (toNat (bits ++ zeros (8 - bits.length)))

/- Add the bytes of a bit string to those in front of it. -/
def bytesAfter (bytes : Array UInt8) : Bits → Array UInt8
  | a :: b :: c :: d :: e :: f :: g :: h :: rest =>
      bytesAfter (bytes.push (byte [a, b, c, d, e, f, g, h]))
        rest
  | [] => bytes
  | rest => bytes.push (byte rest)

/- The bytes of a bit string, the last one filled with zeros. -/
def toBytes (bits : Bits) : List UInt8 :=
  (bytesAfter #[] bits).toList

/- The bits of some bytes, eight for each. -/
def ofBytes (bytes : List UInt8) : Bits :=
  bytes.flatMap fun b => ofNat 8 b.toNat

------------------------------------------------------------
-- Text
------------------------------------------------------------

/- One digit per bit. -/
def text (bits : Bits) : String :=
  String.ofList (bits.map fun b => if b then '1' else '0')

/- Read digits back into bits. -/
def ofText? (s : String) : Option Bits :=
  s.toList.mapM fun c =>
    if c = '0' then some false
    else if c = '1' then some true
    else none

end Bits

end LightShow
