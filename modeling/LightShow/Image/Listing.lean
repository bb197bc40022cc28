import LightShow.Image.Header

/-
  A readable list of every field of an image.

  Key definitions include:
    * `LightShow.Listing.fieldLines`
    * `LightShow.Listing.render`
-/

namespace LightShow

namespace Listing

------------------------------------------------------------
-- Fields
------------------------------------------------------------

/- Fill a text with blanks to a width. -/
def padRight (width : Nat) (s : String) : String :=
  s ++ String.ofList (List.replicate (width - s.length) ' ')

/- The value of a field; codes are given by name. -/
def valueText (f : Field) : String :=
  if f.name.endsWith WidthCode.fieldName then
    WidthCode.textOfCode f.width f.value
  else if f.name = "action opcode" ∧ f.value = 0 then "SetVal"
  else s!"{f.value}"

/- The line of a field that starts at a bit. -/
def fieldLine (start : Nat) (f : Field) : String :=
  s!"    {padRight 28 f.name}: {Bits.text f.bits} " ++
    s!"(width={f.width}, value={valueText f}, " ++
    s!"startbit={start})"

/- The lines of the fields of a record. -/
def fieldLines (r : Record) : List String :=
  List.zipWith fieldLine
    (Path.offsets (r.fields.map Field.width)) r.fields

------------------------------------------------------------
-- Steps, Paths And The Header
------------------------------------------------------------

/- The line that starts a step. -/
def stepLine (s : Step) : String :=
  let line :=
    match s.span with
    | some span => s!" line {span.startLine}"
    | none => ""
  s!"  {s.op.text} @ bit {s.bit} (path bit {s.pathBit})" ++
    line

/- The line that starts a path. -/
def pathLine (p : Path) : String :=
  s!"path {p.id} (thread {p.thread}, z-order {p.zOrder}, " ++
    s!"{p.width} bits)"

/- The lines of a step. -/
def stepLines (s : Step) : List String :=
  stepLine s :: fieldLines s.record

/- The lines of a path, an empty one at the end. -/
def pathLines (p : Path) : List String :=
  pathLine p :: p.steps.flatMap stepLines ++ [""]

/- The lines of the header, an empty one at the end. -/
def headerLines (h : Header) : List String :=
  s!"context-region: {h.byteLength} bytes" ::
    fieldLines h.record ++ [""]

/- All lines of a listing. -/
def lines (h : Header) (paths : List Path) : List String :=
  headerLines h ++ paths.flatMap pathLines

/- The listing as text, each line ended. -/
def render (h : Header) (paths : List Path) : String :=
  String.join ((lines h paths).map fun l => l ++ "\n")

end Listing

end LightShow
