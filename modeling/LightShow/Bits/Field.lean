import LightShow.Bits.Basic
import LightShow.Image.Fault

/-
  Named bit fields.

  Bits of a field are numbered from the least significant
  one, which is sent last. An operation that does not fit
  fails and leaves nothing changed.

  Key definitions include:
    * `LightShow.Field`
    * `LightShow.Field.ofValue`
    * `LightShow.Field.set`
    * `LightShow.Field.setFlag`
    * `LightShow.Field.insertAt`
-/

namespace LightShow

/- A bit string with a name. -/
structure Field where
  name : String
  bits : Bits
deriving DecidableEq, Repr

namespace Field

------------------------------------------------------------
-- Making Fields
------------------------------------------------------------

/- A field of zeros. -/
def zeros (name : String) (width : Nat) : Field :=
  ⟨name, Bits.zeros width⟩

/- A field of ones. -/
def ones (name : String) (width : Nat) : Field :=
  ⟨name, Bits.ones width⟩

/- The number of bits. -/
def width (f : Field) : Nat :=
  f.bits.length

/- Give a field a new value, if it has room for it. -/
def set (f : Field) (value : Nat) : Except Fault Field :=
  if value < Nat.pow 2 f.width then
    .ok { f with bits := Bits.ofNat f.width value }
  else .error (.fieldOverflow f.name f.width value)

/- A field of a given width and value. -/
def ofValue
    (name : String)
    (width value : Nat) : Except Fault Field :=
  (zeros name width).set value

------------------------------------------------------------
-- Reading And Flags
------------------------------------------------------------

/- The number in the last sixty-four bits. -/
def value (f : Field) : Nat :=
  Bits.toNat (f.bits.drop (f.width - 64))

/- Whether the bit with a number is set. -/
def flag (f : Field) (index : Nat) : Bool :=
  index < f.width && f.bits.getD (f.width - 1 - index) false

/- Set the bit with a number. -/
def setFlag (f : Field) (index : Nat) : Except Fault Field :=
  if index < f.width then
    .ok { f with
      bits := f.bits.set (f.width - 1 - index) true }
  else .error (.flagOutOfRange f.name index f.width)

------------------------------------------------------------
-- Joining
------------------------------------------------------------

/- Put the bits of a second field behind the first. -/
def append (f g : Field) : Field :=
  { f with bits := f.bits ++ g.bits }

/-
  Put the bits of a second field before the bit at `index`,
  counted from the one sent first.
-/
def insertAt
    (f : Field)
    (index : Nat)
    (g : Field) : Except Fault Field :=
  if index ≤ f.width then
    .ok { f with
      bits := f.bits.take index ++ g.bits ++
        f.bits.drop index }
  else .error (.insertOutOfRange f.name index f.width)

end Field

end LightShow
