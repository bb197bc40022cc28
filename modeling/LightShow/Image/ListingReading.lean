import LightShow.Bits.Basic
import LightShow.Text.Letters
import LightShow.Text.Split

/-
  Listings, read back from their text.

  Every line of a listing says by its indentation and first
  word what it is about. A field line gives a name, the bits
  of the field, their number, a value and the bit at which
  the field starts; the other lines are headings.

  Key definitions include:
    * `LightShow.LineReader`
    * `LightShow.Listing.Row`
    * `LightShow.Listing.row?`
    * `LightShow.Listing.read?`
-/

namespace LightShow

------------------------------------------------------------
-- Readers Of Lines
------------------------------------------------------------

/- Readers of the characters of a line. -/
abbrev LineReader := StateT (List Char) Option

namespace LineReader

/- Read a fixed text. -/
def expect (text : String) : LineReader Unit :=
  fun cs =>
    if text.toList.isPrefixOf cs then
      some ((), cs.drop text.toList.length)
    else none

/- Read as many characters of a class as there are. -/
def run (p : Char → Bool) : LineReader String :=
  fun cs =>
    some (String.ofList (cs.takeWhile p), cs.dropWhile p)

/- Read a decimal number. -/
def number : LineReader Nat := do
  let digits ← run Char.isDigit
  if digits.isEmpty then failure
  return Text.digitsValue digits.toList

/- Read bits, one digit for each. -/
def bits : LineReader Bits := do
  let digits ← run fun c => c == '0' || c == '1'
  liftM (Bits.ofText? digits)

/- Read something if the line goes on. -/
def rest
    {α : Type}
    (r : LineReader α) : LineReader (Option α) :=
  fun cs =>
    if cs.isEmpty then some (none, [])
    else (r cs).map fun x => (some x.1, x.2)

/- What a reader makes of a whole line. -/
def whole
    {α : Type}
    (r : LineReader α)
    (cs : List Char) : Option α :=
  match r cs with
  | some (a, []) => some a
  | _ => none

end LineReader

------------------------------------------------------------
-- Rows
------------------------------------------------------------

namespace Listing

/- What a line of a listing says. -/
inductive Row where
  | header (bytes : Nat)
  | path (id thread zOrder width : Nat)
  | step
      (name : String)
      (bit pathBit : Nat)
      (line : Option Nat)
  | field
      (name : String)
      (bits : Bits)
      (width : Nat)
      (value : String)
      (start : Nat)
  | blank
deriving DecidableEq, Repr

open LineReader (expect run number)

/- The heading of the header. -/
def headerRow : LineReader Row := do
  expect "context-region: "
  let bytes ← number
  expect " bytes"
  return .header bytes

/- The heading of a path. -/
def pathRow : LineReader Row := do
  expect "path "
  let id ← number
  expect " (thread "
  let thread ← number
  expect ", z-order "
  let zOrder ← number
  expect ", "
  let width ← number
  expect " bits)"
  return .path id thread zOrder width

/- The heading of a step, behind its two blanks. -/
def stepRow : LineReader Row := do
  let name ← run Char.isAlpha
  expect " @ bit "
  let bit ← number
  expect " (path bit "
  let pathBit ← number
  expect ")"
  let line ← LineReader.rest do
    expect " line "
    number
  return .step name bit pathBit line

/- A field, behind its four blanks. -/
def fieldRow : LineReader Row := do
  let name ← run (· != ':')
  expect ": "
  let bits ← LineReader.bits
  expect " (width="
  let width ← number
  expect ", value="
  let value ← run (· != ',')
  expect ", startbit="
  let start ← number
  expect ")"
  return .field name bits width value start

/- What a line says. -/
def row? : List Char → Option Row
  | [] => some .blank
  | ' ' :: ' ' :: ' ' :: ' ' :: cs => fieldRow.whole cs
  | ' ' :: ' ' :: cs => stepRow.whole cs
  | 'p' :: cs => pathRow.whole ('p' :: cs)
  | cs => headerRow.whole cs

/- What the lines of a text say, all of them ended. -/
def read? (text : String) : Option (List Row) :=
  let lines := Text.split '\n' text.toList
  if lines.getLast? = some [] then lines.dropLast.mapM row?
  else none

end Listing

end LightShow
