import LightShow.Bits.Field
import LightShow.Numeric.Total

/-
  Records: fields in the order in which they are sent.

  Key definitions include:
    * `LightShow.Record`
    * `LightShow.Record.width`
    * `LightShow.Record.bits`
    * `LightShow.Record.setNamed`
-/

namespace LightShow

/- The fields of one encoded unit. -/
structure Record where
  fields : List Field := []
deriving DecidableEq, Repr

namespace Record

instance : Inhabited Record := ⟨{}⟩

/- The number of fields. -/
def size (r : Record) : Nat :=
  r.fields.length

/- The number of bits of all fields. -/
def width (r : Record) : Nat :=
  total (r.fields.map Field.width)

/- The bits of all fields, in order. -/
def bits (r : Record) : Bits :=
  r.fields.flatMap Field.bits

/- Put fields at the end. -/
def push (r : Record) (fields : List Field) : Record :=
  ⟨r.fields ++ fields⟩

/- The first field of a name. -/
def find? (r : Record) (name : String) : Option Field :=
  r.fields.find? fun f => f.name == name

/- Give the field at an index a new value. -/
def setAt
    (r : Record)
    (index value : Nat) : Option (Except Fault Record) :=
  r.fields[index]?.map fun f => do
    let g ← f.set value
    return ⟨r.fields.set index g⟩

/- Set a flag of the field at an index. -/
def setFlagAt
    (r : Record)
    (index flag : Nat) : Option (Except Fault Record) :=
  r.fields[index]?.map fun f => do
    let g ← f.setFlag flag
    return ⟨r.fields.set index g⟩

/- Give the first field of a name a new value. -/
def setNamed
    (r : Record)
    (name : String)
    (value : Nat) : Option (Except Fault Record) :=
  (r.fields.findIdx? fun f => f.name == name).bind fun i =>
    r.setAt i value

end Record

end LightShow
