import LightShow.Toml.Literal
import LightShow.Toml.Table

/-
  What the values of a document come to.

  Integers fit sixty-four bits with a sign, and floats are not
  too large for double precision.

  One key is reserved for dates. A table in which no key comes
  before it, in the order of keys, stands for the date or time
  that the text of the key spells, and all else in it is
  passed over. Where the key has no such text the document is
  faulty. The table of the document itself is never a date.

  Key definitions include:
    * `LightShow.Toml.reservedKey`
    * `LightShow.Toml.Table.leading?`
    * `LightShow.Toml.Value.settle?`
    * `LightShow.Toml.settleEntries?`
-/

namespace LightShow

namespace Toml

/- The key that is reserved for dates. -/
def reservedKey : String := "$__toml_private_datetime"

/- The value of the reserved key where it is the first. -/
def Table.leading? (t : Table) : Option Value :=
  if t.all fun (key, _) => reservedKey ≤ key then
    t.get? reservedKey
  else none

/- The date or time that a value spells. -/
def Value.date? : Value → Option Value
  | .string text =>
      if Literal.isDatetime text.toList then
        some (.datetime text)
      else none
  | _ => none

/- The date that a table stands for, or else a plain value. -/
def Table.dateOr?
    (t : Table)
    (plain : Option Value) : Option Value :=
  match t.leading? with
  | some value => value.date?
  | none => plain

mutual

/-
  A value whose numbers are in range, with dates in place of
  the tables that stand for them. The tables of double headers
  become an array.
-/
def Value.settle? : Value → Option Value
  | .integer n =>
      if Literal.fits n then some (.integer n) else none
  | .float literal =>
      if Literal.isInRange literal.toList then
        some (.float literal)
      else none
  | .array items => (settleItems? items).map .array
  | .table origin entries =>
      Table.dateOr? entries
        ((settleEntries? entries).map (.table origin))
  | .tables closed current => do
      let items ← settleRows? closed
      let last ← Table.dateOr? current
        ((settleEntries? current).map (.table .header))
      return .array (items ++ [last])
  | value => some value

/- The items of an array, each settled. -/
def settleItems? : List Value → Option (List Value)
  | [] => some []
  | value :: rest => do
      return (← value.settle?) :: (← settleItems? rest)

/- The entries of a table, each settled. -/
def settleEntries? :
    List (String × Value) → Option (List (String × Value))
  | [] => some []
  | (key, value) :: rest => do
      return (key, ← value.settle?) :: (← settleEntries? rest)

/- The tables of double headers, each settled. -/
def settleRows? :
    List (List (String × Value)) → Option (List Value)
  | [] => some []
  | entries :: rest => do
      let first ← Table.dateOr? entries
        ((settleEntries? entries).map (.table .header))
      return first :: (← settleRows? rest)

end

end Toml

end LightShow
