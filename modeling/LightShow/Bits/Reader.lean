import LightShow.Bits.Basic

/-
  Reading numbers off the front of a bit string.

  A reader takes what it reads off the front and hands on
  the rest, or finds that too few bits are left.

  Key definitions include:
    * `LightShow.BitReader`
    * `LightShow.BitReader.bits`
    * `LightShow.BitReader.number`
    * `LightShow.BitReader.sized2`
    * `LightShow.BitReader.sized3`
-/

namespace LightShow

/- Readers of bit strings. -/
abbrev BitReader := StateT Bits Option

namespace BitReader

/- Read some bits. -/
def bits (width : Nat) : BitReader Bits :=
  fun b =>
    if width ≤ b.length then
      some (b.take width, b.drop width)
    else none

/- Read a number of a given width. -/
def number (width : Nat) : BitReader Nat := do
  return Bits.toNat (← bits width)

/- Read a two-bit code and the one to four bytes behind it. -/
def sized2 : BitReader Nat := do
  let code ← number 2
  number (8 * (code + 1))

/- Read a three-bit code and the bytes behind it, if any. -/
def sized3 : BitReader Nat := do
  let code ← number 3
  number (8 * code)

end BitReader

end LightShow
